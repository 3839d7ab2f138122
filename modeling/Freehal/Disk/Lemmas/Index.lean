import Freehal.Disk.Lemmas.Search

/-!
# The index along a history

A history together with the entry that each stored fact was added with, and the invariant that the
index relates every stored fact to the words of its entry and to no others.
-/

namespace Freehal.Disk

open Lib (Table runScript run Meets)
open Universal (Config)

/-- A state and the entries that its facts were added with. -/
structure Traced where
  state : State
  origin : List (FactRow × Entry)

def Traced.fresh : Traced := ⟨State.fresh, []⟩

/-- Facts that are gone are forgotten, new ones belong to the entry of the operation. -/
def Traced.step (cfg : Config) (t : Traced) (op : Operation) : Traced :=
  let s := Disk.step cfg t.state op
  { state := s
    origin := t.origin.filter (fun o => o.1 ∈ s.db.facts.rows) ++ match op.added with
      | some (_, _, e) =>
          (s.db.facts.rows.filter fun row => row ∉ t.state.db.facts.rows).map fun row => (row, e)
      | none => [] }

/-- The condition on an operation: the new key is not that of a stored fact, and for a fact it is
new to the index, every word can be set and looked up, and the second script is not interrupted. -/
def Indexably (cfg : Config) (s : State) (op : Operation) : Prop :=
  ∀ env rel e, op.added = some (env, rel, e) →
    (∀ row ∈ s.db.facts.rows, row.id ≠ s.nextKey env.key rel)
      ∧ (rel = 0 → (∀ row ∈ s.db.relWordFact.rows, row.fact ≠ s.nextKey env.key rel)
        ∧ clipped (s.nextKey env.key rel) = s.nextKey env.key rel
        ∧ WordsSet cfg env s e ∧ (∀ w ∈ e.indexWords cfg, NoColumn w) ∧ env.second = none)

/-- The invariant of a history whose operations meet the condition. -/
structure Tracked (cfg : Config) (t : Traced) : Prop where
  counted : Counted t.state
  stored : ∀ o ∈ t.origin, o.1 ∈ t.state.db.facts.rows
  traced : ∀ row ∈ t.state.db.facts.rows, ∃ e, (row, e) ∈ t.origin
  indexed : ∀ o ∈ t.origin, IndexedAs cfg t.state.db o.1.id o.2

theorem tracked_fresh (cfg : Config) : Tracked cfg Traced.fresh where
  counted := fresh_counted
  stored o h := by cases h
  traced row h := by cases h
  indexed o h := by cases h

variable {cfg : Config} {db db' : Database} {pk rel : Int} {e e' : Entry} {env : Environment}
  {s : State}

/-- An entry with another key leaves what the index holds for a key. -/
theorem IndexedAs.grows {pk' : Int} (h : IndexedAs cfg db pk e) (hg : Grows pk' rel e' db db')
    (hpk : pk ≠ pk') : IndexedAs cfg db' pk e where
  complete w hw := by
    obtain ⟨id, table, hid, hrow⟩ := h.complete w hw
    exact ⟨id, table, hg.word.subset hid, hg.index.subset hrow⟩
  sound row hrow hfact := by
    rcases hg.newIndex row hrow with hold | hnew
    · obtain ⟨w, hw, id, hid, hword⟩ := h.sound row hold hfact
      exact ⟨w, hw, id, hg.word.subset hid, hword⟩
    · exact absurd (hfact.symm.trans hnew) hpk

/-- A new key is related to the words of its entry. -/
theorem addEntry_indexedAs (h : Counted s) (hw : WordsSet cfg env s e)
    (hcolumns : ∀ w ∈ e.indexWords cfg, NoColumn w) (hsecond : env.second = none)
    (hnew : ∀ row ∈ s.db.relWordFact.rows, row.fact ≠ s.nextKey env.key rel) :
    IndexedAs cfg (addEntry cfg env rel e s).2.db (s.nextKey env.key rel) e := by
  have p := parts cfg env rel e s
  obtain ⟨words, index, _, hdb, _, _, hindexed⟩ := p.indexes h hw hsecond
  have hix := hindexed hcolumns
  have hold : p.s₂.db.relWordFact = s.db.relWordFact := by
    have htarget := genSqlAddEntry_target env.key (s.nextKey env.key rel) rel e
      (getLastPk env.key rel s).2
    rw [p.gen₁] at htarget
    rw [p.db₂, p.db₁]
    exact runScript_frame (·.relWordFact) .relWordFact (fun _ _ _ hf => hf.index) htarget s.db
  rw [hdb]
  constructor
  · intro w hmem
    obtain ⟨id, hid, hrow⟩ := hix.complete w hmem
    exact ⟨id, _, hid, hrow⟩
  · intro row hrow hfact
    rcases hix.sound row hrow with hrow | ⟨w, hmem, id, hid, rfl⟩
    · rw [hold] at hrow
      exact absurd hfact (hnew row hrow)
    · exact ⟨w, hmem, id, hid, rfl⟩

theorem Tracked.step {t : Traced} {op : Operation} (h : Tracked cfg t)
    (hop : Indexably cfg t.state op) : Tracked cfg (t.step cfg op) := by
  cases ho : op.added with
  | none =>
      have hr : Removes t.state (t.step cfg op).state := step_other ho
      have horigin : (t.step cfg op).origin = t.origin.filter fun o =>
          o.1 ∈ (t.step cfg op).state.db.facts.rows := by
        simp [Traced.step, ho]
      refine ⟨step_counted cfg op h.counted, fun o hmem => ?_, fun row hrow => ?_,
        fun o hmem => ?_⟩
      · rw [horigin] at hmem
        simpa using (List.mem_filter.mp hmem).2
      · obtain ⟨e, he⟩ := h.traced row (hr.facts hrow)
        exact ⟨e, by rw [horigin]; exact List.mem_filter.mpr ⟨he, by simpa using hrow⟩⟩
      · rw [horigin] at hmem
        have hix := h.indexed o (List.mem_filter.mp hmem).1
        have hword : (t.step cfg op).state.db.word = t.state.db.word := hr.word
        have hindex : (t.step cfg op).state.db.relWordFact = t.state.db.relWordFact := hr.index
        exact ⟨by rw [hword, hindex]; exact hix.complete, by rw [hword, hindex]; exact hix.sound⟩
  | some call =>
      obtain ⟨env, rel, e⟩ := call
      obtain ⟨hkey, hfact⟩ := hop env rel e ho
      have hstate : (t.step cfg op).state = (addEntry cfg env rel e t.state).2 := step_added ho
      have hgrows : Grows (t.state.nextKey env.key rel) rel e t.state.db
          (t.step cfg op).state.db := hstate ▸ addEntry_grows
      have horigin : (t.step cfg op).origin = t.origin.filter (fun o =>
          o.1 ∈ (t.step cfg op).state.db.facts.rows) ++ ((t.step cfg op).state.db.facts.rows.filter
          fun row => row ∉ t.state.db.facts.rows).map fun row => (row, e) := by
        simp [Traced.step, ho]
      refine ⟨step_counted cfg op h.counted, fun o hmem => ?_, fun row hrow => ?_,
        fun o hmem => ?_⟩
      · rw [horigin] at hmem
        rcases List.mem_append.mp hmem with hmem | hmem
        · simpa using (List.mem_filter.mp hmem).2
        · obtain ⟨row, hrow, rfl⟩ := List.mem_map.mp hmem
          exact (List.mem_filter.mp hrow).1
      · rw [horigin]
        by_cases hold : row ∈ t.state.db.facts.rows
        · obtain ⟨e', he'⟩ := h.traced row hold
          exact ⟨e', List.mem_append_left _ (List.mem_filter.mpr ⟨he', by simpa using hrow⟩)⟩
        · exact ⟨e, List.mem_append_right _ (List.mem_map.mpr
            ⟨row, List.mem_filter.mpr ⟨hrow, by simpa using hold⟩, rfl⟩)⟩
      · rw [horigin] at hmem
        rcases List.mem_append.mp hmem with hmem | hmem
        · have hmem := (List.mem_filter.mp hmem).1
          exact (h.indexed o hmem).grows hgrows (hkey _ (h.stored o hmem))
        · obtain ⟨row, hrow, rfl⟩ := List.mem_map.mp hmem
          obtain ⟨hrow, hold⟩ := List.mem_filter.mp hrow
          rcases hgrows.newFact row hrow with hrow | ⟨hrel, hid⟩
          · exact absurd hrow (by simpa using hold)
          · obtain ⟨hnew, hclip, hw, hcolumns, hsecond⟩ := hfact hrel
            simp only
            rw [hid, hclip, hstate]
            exact addEntry_indexedAs h.counted hw hcolumns hsecond hnew

theorem tracked_run {ops : List Operation}
    (h : Meets (Traced.step cfg) (fun t => Indexably cfg t.state) Traced.fresh ops) :
    Tracked cfg (run (Traced.step cfg) Traced.fresh ops) :=
  h.induction (tracked_fresh cfg) fun _ _ => Tracked.step

end Freehal.Disk
