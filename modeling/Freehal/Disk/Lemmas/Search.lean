import Mathlib.Data.List.ReduceOption
import Freehal.Disk.Search
import Freehal.Disk.Lemmas.Entries

/-!
# What a search selects

The words of a search, and one selector against the words of a fact that the index holds exactly.
-/

namespace Freehal.Disk

open Lib (Table bind_eq_ok)
open Universal (Config Group Word)

/-! ## The words of a request -/

/-- The words that a request holds. -/
def requested (words : List Group) : List Word := words.flatMap fun g => (g.getD []).reduceOption

theorem uniqueGroup_spec (n : Nat) (words : List (Option Word)) {found : List Word}
    (h : found.length + words.reduceOption.length < 1024) :
    (uniqueGroup n words found).length ≤ found.length + words.reduceOption.length
      ∧ ∀ w, w ∈ uniqueGroup n words found ↔ w ∈ found ∨ w ∈ words.reduceOption := by
  induction words generalizing found with
  | nil => simp [uniqueGroup, List.reduceOption]
  | cons word words ih =>
      cases word with
      | none => simpa [uniqueGroup] using ih (by simpa using h)
      | some v =>
          simp only [List.reduceOption_cons_of_some, List.length_cons] at h ⊢
          by_cases hv : v ∈ found.take n
          · obtain ⟨hlen, hmem⟩ := @ih found (by omega)
            rw [uniqueGroup, if_pos (Or.inr hv)]
            refine ⟨by omega, fun w => ?_⟩
            rw [hmem, List.mem_cons]
            constructor
            · intro hw
              rcases hw with hw | hw
              · exact Or.inl hw
              · exact Or.inr (Or.inr hw)
            · intro hw
              rcases hw with hw | rfl | hw
              · exact Or.inl hw
              · exact Or.inl (List.mem_of_mem_take hv)
              · exact Or.inr hw
          · obtain ⟨hlen, hmem⟩ := @ih (found ++ [v]) (by simp; omega)
            have hroom : ¬ (found.length + 1 ≥ 1024 ∨ v ∈ found.take n) := by
              intro hfull
              rcases hfull with hfull | hv'
              · omega
              · exact hv hv'
            rw [uniqueGroup, if_neg hroom]
            simp only [List.length_append, List.length_singleton] at hlen
            refine ⟨by omega, fun w => ?_⟩
            rw [hmem, List.mem_append, List.mem_singleton, List.mem_cons, or_assoc]

theorem mem_uniqueFrom (n : Nat) {words : List Group} {found : List Word}
    (h : found.length + (requested words).length < 1024) (w : Word) :
    w ∈ uniqueFrom n words found ↔ w ∈ found ∨ w ∈ requested words := by
  induction words generalizing n found with
  | nil => simp [uniqueFrom, requested]
  | cons group groups ih =>
      simp only [requested, List.flatMap_cons, List.length_append, List.mem_append] at h ⊢
      cases group with
      | none =>
          have := @ih (n + 1) found (by simp only [requested]; omega)
          simpa [uniqueFrom, requested, List.reduceOption] using this
      | some g =>
          simp only [Option.getD_some] at h ⊢
          obtain ⟨hlen, hmem⟩ := @uniqueGroup_spec n g found (by omega)
          have := @ih (n + 1) (uniqueGroup n g found) (by simp only [requested]; omega)
          rw [uniqueFrom, this, hmem, or_assoc]
          rfl

theorem mem_unique {words : List Group} (h : (requested words).length < 1024) (w : Word) :
    w ∈ unique words ↔ w ∈ requested words := by
  rw [unique, mem_uniqueFrom 0 (by simpa using h)]
  simp

/-! ## One word -/

/-- The words of a fact that can be found: those of `detect_words` and the mark of a conditional
question word. -/
def Entry.ownWords (cfg : Config) (e : Entry) : List Str :=
  detectWords cfg e.verbs e.subjects e.objects e.adverbs
    ++ if e.hasConditionalQuestionword then [conditionalMarker] else []

theorem mem_indexWords {cfg : Config} {e : Entry} {w : Str} :
    w ∈ e.indexWords cfg ↔ w ∈ e.ownWords cfg ∧ isIndexed w = true := by
  rw [Entry.indexWords, List.mem_filter, List.mem_reverse, Entry.ownWords]

variable (glob : Str → Str → Bool)

/-- A searched word finds a word of a fact: it is that word, or a pattern for it. -/
def finds (word own : Str) : Bool :=
  if '*' ∈ pattern word then glob (stored (pattern word)) (stored own)
  else stored (pattern word) = stored own

/-- The searched word is one literal and no name of a column, and it finds none of the words that
the index leaves out (a `0` with at most one more character, or nothing). -/
structure Searchable (word : Str) : Prop where
  settable : Settable (pattern word)
  noColumn : NoColumn (pattern word)
  noOuter : isName ["fact", "table"] (stored (pattern word)) = false
  indexed : ∀ own, isIndexed own = false → finds glob word own = false

/-- The index relates a key to the words of an entry and to no others. -/
structure IndexedAs (cfg : Config) (db : Database) (pk : Int) (e : Entry) : Prop where
  complete : ∀ w ∈ e.indexWords cfg, ∃ id table, ⟨id, stored w⟩ ∈ db.word.rows
    ∧ ⟨some id, pk, table⟩ ∈ db.relWordFact.rows
  sound : ∀ row ∈ db.relWordFact.rows, row.fact = pk →
    ∃ w ∈ e.indexWords cfg, ∃ id, ⟨id, stored w⟩ ∈ db.word.rows ∧ row.word = some id

theorem eq_of_id {t : Table WordRow.clash} {a b : WordRow} (ha : a ∈ t.rows) (hb : b ∈ t.rows)
    (h : a.id = b.id) : a = b :=
  Table.eq_of_clash ha hb (by simp [WordRow.clash, h]) (by simp [WordRow.clash, h])

theorem eq_of_word {t : Table WordRow.clash} {a b : WordRow} (ha : a ∈ t.rows) (hb : b ∈ t.rows)
    (h : a.word = b.word) : a = b :=
  Table.eq_of_clash ha hb (by simp [WordRow.clash, h]) (by simp [WordRow.clash, h])

variable {glob} {cfg : Config} {db : Database} {pk : Int} {e : Entry} {word : Str}

theorem isWithin_eq (h : Searchable glob word) (outer : IndexRow) (row : WordRow) :
    row.isWithin outer (stored (pattern word)) = decide (row.word = stored (pattern word)) := by
  have hfact : isName ["fact"] (stored (pattern word)) = false := by
    have := h.noOuter
    simp only [isName, List.any_cons, List.any_nil, Bool.or_false, Bool.or_eq_false_iff] at this ⊢
    exact this.1
  have htable : isName ["table"] (stored (pattern word)) = false := by
    have := h.noOuter
    simp only [isName, List.any_cons, List.any_nil, Bool.or_false, Bool.or_eq_false_iff] at this ⊢
    exact this.2
  simp [WordRow.isWithin, WordRow.is, hfact, htable, h.noColumn.1, h.noColumn.2]

/-- A word of the index has its id in the rows of the key, whatever the comparison is. -/
theorem IndexedAs.exists_row (h : IndexedAs cfg db pk e) (p : Str → Prop) :
    (∃ row ∈ db.relWordFact.rows, row.fact = pk ∧ ∃ w ∈ db.word.rows, row.word = some w.id
      ∧ p w.word) ↔ ∃ own ∈ e.indexWords cfg, p (stored own) := by
  constructor
  · intro ⟨row, hrow, hfact, w, hw, hid, hp⟩
    obtain ⟨own, hown, id, hmem, hid'⟩ := h.sound row hrow hfact
    rw [hid, Option.some.injEq] at hid'
    rw [eq_of_id hw hmem hid'] at hp
    exact ⟨own, hown, hp⟩
  · intro ⟨own, hown, hp⟩
    obtain ⟨id, table, hmem, hrow⟩ := h.complete own hown
    exact ⟨_, hrow, rfl, _, hmem, rfl, hp⟩

/-- The selector of a word selects the key exactly when the word finds a word of the entry. -/
theorem selectIndices_iff (h : IndexedAs cfg db pk e) (hw : Searchable glob word) :
    ∃ indices, db.selectIndices glob (selector word) = .ok indices
      ∧ (pk ∈ indices ↔ ∃ own ∈ e.ownWords cfg, finds glob word own = true) := by
  have hown : (∃ own ∈ e.ownWords cfg, finds glob word own = true)
      ↔ ∃ own ∈ e.indexWords cfg, finds glob word own = true := by
    constructor
    · intro ⟨own, hmem, hfinds⟩
      refine ⟨own, mem_indexWords.mpr ⟨hmem, ?_⟩, hfinds⟩
      by_contra hindexed
      rw [hw.indexed own (by simpa using hindexed)] at hfinds
      cases hfinds
    · intro ⟨own, hmem, hfinds⟩
      exact ⟨own, (mem_indexWords.mp hmem).1, hfinds⟩
  rw [hown]
  by_cases hstar : '*' ∈ pattern word
  · have hsel : selector word = .inGlob (stored (pattern word)) := by
      simp only [selector, hstar, if_true, if_neg hw.settable.2]
    rw [hsel]
    simp only [Database.selectIndices, literal, if_neg hw.settable.stored]
    refine ⟨_, rfl, ?_⟩
    have hrows := h.exists_row fun text => glob (stored (pattern word)) text = true
    simp only [finds, hstar, if_true]
    rw [← hrows]
    simp only [List.mem_map, List.mem_filter, List.any_eq_true, Bool.and_eq_true,
      decide_eq_true_eq]
    constructor
    · intro ⟨row, ⟨hrow, w, hmem, hid, hglob⟩, hfact⟩
      exact ⟨row, hrow, hfact, w, hmem, hid, hglob⟩
    · intro ⟨row, hrow, hfact, w, hmem, hid, hglob⟩
      exact ⟨row, ⟨hrow, w, hmem, hid, hglob⟩, hfact⟩
  · have hsel : selector word = .eq (.selectId (stored (pattern word))) := by
      simp only [selector, hstar, if_false, sqlGetWord_settable hw.settable]
    rw [hsel]
    simp only [Database.selectIndices, literal, if_neg hw.settable.stored]
    refine ⟨_, rfl, ?_⟩
    have hrows := h.exists_row fun text => text = stored (pattern word)
    simp only [finds, hstar, if_false, decide_eq_true_eq]
    have hcomm : (∃ own ∈ e.indexWords cfg, stored (pattern word) = stored own)
        ↔ ∃ own ∈ e.indexWords cfg, stored own = stored (pattern word) := by
      simp only [eq_comm]
    rw [hcomm, ← hrows]
    simp only [List.mem_map, List.mem_filter, Bool.and_eq_true, decide_eq_true_eq,
      isWithin_eq hw]
    constructor
    · intro ⟨row, ⟨hrow, hsome, hid⟩, hfact⟩
      cases hfind : db.word.rows.find? fun w => decide (w.word = stored (pattern word)) with
      | none => rw [hfind] at hid; simp [hid] at hsome
      | some w =>
          rw [hfind] at hid
          exact ⟨row, hrow, hfact, w, List.mem_of_find?_eq_some hfind, hid,
            by simpa using List.find?_some hfind⟩
    · intro ⟨row, hrow, hfact, w, hmem, hid, htext⟩
      cases hfind : db.word.rows.find? fun w => decide (w.word = stored (pattern word)) with
      | none =>
          have := List.find?_eq_none.mp hfind w hmem
          simp [htext] at this
      | some v =>
          have hv : v.word = stored (pattern word) := by simpa using List.find?_some hfind
          have : v = w := eq_of_word (List.mem_of_find?_eq_some hfind) hmem (hv.trans htext.symm)
          exact ⟨row, ⟨hrow, by simp [hid], by rw [hid, this]; rfl⟩, hfact⟩

/-- A searched word without a star finds nothing that the index leaves out, if the index would not
leave it out. -/
theorem not_finds_of_indexed (hstar : '*' ∉ pattern word)
    (h : isIndexed (stored (pattern word)) = true) (own : Str) (ho : isIndexed own = false) :
    finds glob word own = false := by
  have hown : stored own = own := by
    cases own with
    | nil => rfl
    | cons c text =>
        have hc : c = '0' := by
          by_contra hc
          simp [isIndexed, hc] at ho
        subst hc
        simp [stored]
  simp only [finds, hstar, if_false, decide_eq_false_iff_not]
  intro heq
  rw [heq, hown, ho] at h
  cases h

/-! ## All the words -/

theorem mapM_ok_mem {α β : Type} {f : α → Except SqlError (List β)} {as : List α}
    (h : ∀ a ∈ as, ∃ bs, f a = .ok bs) :
    ∃ bss, as.mapM f = .ok bss ∧ ∀ b, b ∈ bss.flatten ↔ ∃ a ∈ as, ∃ bs, f a = .ok bs ∧ b ∈ bs := by
  induction as with
  | nil => exact ⟨[], rfl, by simp⟩
  | cons a as ih =>
      obtain ⟨bs, hbs⟩ := h a (by simp)
      obtain ⟨bss, hbss, hmem⟩ := ih fun a' ha' => h a' (by simp [ha'])
      refine ⟨bs :: bss, by rw [List.mapM_cons, hbs, hbss]; rfl, fun b => ?_⟩
      simp only [List.flatten_cons, List.mem_append, hmem, List.mem_cons, exists_eq_or_imp, hbs,
        Except.ok.injEq]
      simp

/-- The searched words are complete: the first group is a pointer, and the array of `unique` holds
them all. -/
def Complete (words : List Group) : Prop :=
  (∃ g groups, words = some g :: groups) ∧ (requested words).length < 1024

theorem selectedFacts_iff {words : List Group} {row : FactRow} (hwords : Complete words)
    (hs : ∀ w ∈ requested words, isSkipped cfg w.name = false → Searchable glob w.name)
    (hrow : row ∈ db.facts.rows) (h : IndexedAs cfg db row.id e) :
    row ∈ selectedFacts glob cfg db words ↔ ∃ w ∈ requested words, isSkipped cfg w.name = false
      ∧ ∃ own ∈ e.ownWords cfg, finds glob w.name own = true := by
  obtain ⟨⟨g, groups, rfl⟩, hlen⟩ := hwords
  have hsel : ∀ sel, sel ∈ genSqlGetFactsForWords cfg (some g :: groups)
      ↔ ∃ w ∈ requested (some g :: groups), isSkipped cfg w.name = false
        ∧ selector w.name = sel := by
    intro sel
    simp only [genSqlGetFactsForWords, List.mem_map, List.mem_filter, mem_unique hlen,
      Bool.not_eq_true', and_assoc]
  have hok : ∀ sel ∈ genSqlGetFactsForWords cfg (some g :: groups),
      ∃ indices, db.selectIndices glob sel = .ok indices := by
    intro sel hmem
    obtain ⟨w, hw, hskip, rfl⟩ := (hsel sel).mp hmem
    obtain ⟨indices, hindices, _⟩ := selectIndices_iff h (hs w hw hskip)
    exact ⟨indices, hindices⟩
  obtain ⟨indices, hindices, hmem⟩ := mapM_ok_mem hok
  simp only [selectedFacts, hindices, List.mem_filter, hrow, true_and, decide_eq_true_eq, hmem]
  constructor
  · intro h'
    obtain ⟨sel, hsel', found, hfound, hid⟩ := h'
    obtain ⟨w, hw, hskip, rfl⟩ := (hsel sel).mp hsel'
    obtain ⟨indices', hindices', hiff⟩ := selectIndices_iff h (hs w hw hskip)
    rw [hfound, Except.ok.injEq] at hindices'
    exact ⟨w, hw, hskip, hiff.mp (hindices' ▸ hid)⟩
  · intro h'
    obtain ⟨w, hw, hskip, hfinds⟩ := h'
    obtain ⟨indices', hindices', hiff⟩ := selectIndices_iff h (hs w hw hskip)
    exact ⟨_, (hsel _).mpr ⟨w, hw, hskip, rfl⟩, indices', hindices', hiff.mpr hfinds⟩

theorem selectedFacts_subset {words : List Group} {row : FactRow}
    (h : row ∈ selectedFacts glob cfg db words) : row ∈ db.facts.rows := by
  unfold selectedFacts at h
  split at h
  · exact List.mem_of_mem_filter h
  · cases h

end Freehal.Disk
