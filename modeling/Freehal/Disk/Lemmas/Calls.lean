import Freehal.Disk.Lemmas.Storing

/-!
# What a call that adds an entry does

One theorem for what every call does, one for the words and one for the index of a call whose
words can be set.
-/

namespace Freehal.Disk

open Lib (Table runScript bind_eq_ok runScript_append runScript_cons_ok)
open Universal (Config)

/-- The key that the next entry gets. -/
def State.nextKey (s : State) (key rel : Int) : Int := (getLastPk key rel s).1 + 1

/-- The last word id that is in use, as `get_last_wordid` sees it. -/
def State.lastWordid (s : State) (key : Int) : Int :=
  if s.cacheWordid > -1 then s.cacheWordid else lastKey key (s.db.word.rows.map (·.id))

/-! ## The parts of a call -/

theorem getLastPk_db (key rel : Int) (s : State) : (getLastPk key rel s).2.db = s.db := by
  unfold getLastPk
  split <;> rfl

theorem getLastPk_cacheWordid (key rel : Int) (s : State) :
    (getLastPk key rel s).2.cacheWordid = s.cacheWordid := by
  unfold getLastPk
  split <;> rfl

theorem getLastPk_counted (key rel : Int) {s : State} (h : Counted s) :
    Counted (getLastPk key rel s).2 := by
  have hdb := getLastPk_db key rel s
  have hc := getLastPk_cacheWordid key rel s
  exact ⟨hdb ▸ h.nonempty, fun hlt => by rw [hdb, hc]; exact h.below (hc ▸ hlt)⟩

theorem sqlExecute_db (interrupt : Option Nat) (script : List Statement) (s : State) :
    (sqlExecute interrupt script s).2.db
      = (runScript Statement.exec .other interrupt script s.db).1 := by
  unfold sqlExecute
  split
  · rename_i h; rw [h]
  · rename_i h; rw [h]

theorem sqlExecute_cacheWordid (interrupt : Option Nat) (script : List Statement) (s : State) :
    (sqlExecute interrupt script s).2.cacheWordid = s.cacheWordid := by
  unfold sqlExecute
  split <;> rfl

theorem sqlExecute_counted {interrupt : Option Nat} {script : List Statement} {s : State}
    (h : Counted s) (hb : Bounded s.cacheWordid script) :
    Counted (sqlExecute interrupt script s).2 := by
  obtain ⟨hp, hbelow⟩ := runScript_word interrupt s.db hb
  have hdb := sqlExecute_db interrupt script s
  have hc := sqlExecute_cacheWordid interrupt script s
  refine ⟨?_, fun hlt => ?_⟩
  · intro hnil
    rw [hdb] at hnil
    rw [hnil] at hp
    exact h.nonempty (List.prefix_nil.mp hp)
  · rw [hdb, hc]
    exact hbelow (h.below (hc ▸ hlt))

/-! ## Every call -/

/-- A call in its parts: the key, the first script, the second one. -/
structure Parts (cfg : Config) (env : Environment) (rel : Int) (e : Entry) (s : State) where
  first : List Statement
  s₁ : State
  s₂ : State
  second : List Statement
  s₃ : State
  gen₁ : genSqlAddEntry env.key (s.nextKey env.key rel) rel e (getLastPk env.key rel s).2
    = (first, s₁)
  exec₁ : s₂ = (sqlExecute env.first
    (first ++ genSqlAddVerbFlags (s.nextKey env.key rel) rel e) s₁).2
  gen₂ : genSqlAddWordFactRelations cfg env.key (s.nextKey env.key rel) rel e s₂ = (second, s₃)
  exec₂ : addEntry cfg env rel e s = ((s.nextKey env.key rel,
    (sqlExecute env.second second s₃).1), (sqlExecute env.second second s₃).2)

def parts (cfg : Config) (env : Environment) (rel : Int) (e : Entry) (s : State) :
    Parts cfg env rel e s :=
  let pk := s.nextKey env.key rel
  let gen₁ := genSqlAddEntry env.key pk rel e (getLastPk env.key rel s).2
  let s₂ := (sqlExecute env.first (gen₁.1 ++ genSqlAddVerbFlags pk rel e) gen₁.2).2
  let gen₂ := genSqlAddWordFactRelations cfg env.key pk rel e s₂
  ⟨gen₁.1, gen₁.2, s₂, gen₂.1, gen₂.2, rfl, rfl, rfl, rfl⟩

variable {cfg : Config} {env : Environment} {rel : Int} {e : Entry} {s : State}

theorem Parts.generates₁ (p : Parts cfg env rel e s) (h : Counted s) :
    Generates (getLastPk env.key rel s).2
      (p.first ++ genSqlAddVerbFlags (s.nextKey env.key rel) rel e) p.s₁ := by
  have hgen := genSqlAddEntry_generates env.key (s.nextKey env.key rel) rel e
    (getLastPk_counted env.key rel h)
  rw [p.gen₁] at hgen
  exact hgen.append (by simp [genSqlAddVerbFlags])

theorem Parts.counted₂ (p : Parts cfg env rel e s) (h : Counted s) : Counted p.s₂ := by
  have hgen := p.generates₁ h
  rw [p.exec₁]
  exact sqlExecute_counted hgen.counted hgen.bounded

theorem Parts.generates₂ (p : Parts cfg env rel e s) (h : Counted s) :
    Generates p.s₂ p.second p.s₃ := by
  have hgen := genSqlAddWordFactRelations_generates cfg env.key (s.nextKey env.key rel) rel e
    (p.counted₂ h)
  rwa [p.gen₂] at hgen

theorem Parts.db₁ (p : Parts cfg env rel e s) : p.s₁.db = s.db := by
  have hdb := genSqlAddEntry_db env.key (s.nextKey env.key rel) rel e (getLastPk env.key rel s).2
  rw [p.gen₁] at hdb
  exact hdb.trans (getLastPk_db env.key rel s)

theorem Parts.db₃ (p : Parts cfg env rel e s) : p.s₃.db = p.s₂.db := by
  have hdb := genSqlAddWordFactRelations_db cfg env.key (s.nextKey env.key rel) rel e p.s₂
  rwa [p.gen₂] at hdb

theorem Parts.db₂ (p : Parts cfg env rel e s) : p.s₂.db = (runScript Statement.exec .other env.first
    (p.first ++ genSqlAddVerbFlags (s.nextKey env.key rel) rel e) p.s₁.db).1 := by
  rw [p.exec₁, sqlExecute_db]

theorem Parts.db₄ (p : Parts cfg env rel e s) : (addEntry cfg env rel e s).2.db
    = (runScript Statement.exec .other env.second p.second p.s₃.db).1 := by
  rw [p.exec₂, sqlExecute_db]

theorem addEntry_counted (h : Counted s) : Counted (addEntry cfg env rel e s).2 := by
  have p := parts cfg env rel e s
  have hgen := p.generates₂ h
  rw [p.exec₂]
  exact sqlExecute_counted hgen.counted hgen.bounded

theorem Parts.grows₁ (p : Parts cfg env rel e s) :
    Grows (s.nextKey env.key rel) rel e s.db p.s₂.db := by
  have hof := genSqlAddEntry_ofEntry env.key (s.nextKey env.key rel) rel e
    (getLastPk env.key rel s).2
  rw [p.gen₁] at hof
  rw [p.db₂, p.db₁]
  exact runScript_grows hof s.db

theorem Parts.grows₂ (p : Parts cfg env rel e s) :
    Grows (s.nextKey env.key rel) rel e p.s₂.db (addEntry cfg env rel e s).2.db := by
  have hof := genSqlAddWordFactRelations_ofEntry cfg env.key (s.nextKey env.key rel) rel e p.s₂
  rw [p.gen₂] at hof
  rw [p.db₄, p.db₃]
  exact runScript_grows hof p.s₂.db

/-- What a call adds. -/
theorem addEntry_grows :
    Grows (s.nextKey env.key rel) rel e s.db (addEntry cfg env rel e s).2.db :=
  let p := parts cfg env rel e s
  p.grows₁.trans p.grows₂

/-! ## The words of a call -/

theorem getLastWordid_cold (key : Int) (h : ¬ -1 < s.cacheWordid) :
    getLastWordid key s = (s.lastWordid key, { s with cacheWordid := s.lastWordid key }) := by
  simp [getLastWordid, State.lastWordid, h]

theorem lastWordid_warm {key : Int} (h : -1 < s.cacheWordid) :
    s.lastWordid key = s.cacheWordid := by
  simp [State.lastWordid, h]

/-- What setting some words does. Only the first word may be missing afterwards, where it is the
first one of a process. -/
structure SetsWords (key : Int) (s : State) (w : Str) (ws : List Str) (script : List Statement)
    (s' : State) (words : Table WordRow.clash) : Prop where
  run : runScript Statement.exec .other none script s.db = ({ s.db with word := words }, none)
  frame : s' = { s with cacheWordid := s'.cacheWordid }
  warm : -1 < s'.cacheWordid
  bound : s'.cacheWordid ≤ s.lastWordid key + (ws.length + 1)
  below : Below words s'.cacheWordid
  old : s.db.word.rows <+: words.rows
  holds : ∀ v ∈ ws, Holds words v
  first : -1 < s.cacheWordid ∨ Holds s.db.word w → Holds words w

theorem mapM_setsWords (key : Int) (w : Str) (ws : List Str) (h : Counted s)
    (hws : ∀ v ∈ w :: ws, Settable v)
    (hrange : s.lastWordid key + (ws.length + 1) < 100000000) :
    ∃ words, SetsWords key s w ws ((w :: ws).mapM (sqlSetWord key) s).1.flatten
      ((w :: ws).mapM (sqlSetWord key) s).2 words := by
  have htail : ∀ w s, sqlSetWord key w s
      = ((sqlSetWord key w s).1 ++ (fun _ => []) w, (sqlSetWord key w s).2) := fun w s => by rw [List.append_nil]; rfl
  by_cases hwarm : -1 < s.cacheWordid
  · rw [lastWordid_warm hwarm] at hrange
    obtain ⟨hscript, hstate⟩ := mapM_wordScript htail hws hwarm (by simpa using hrange)
    have hheld : ∀ v ∈ w :: ws, Holds (setTable s.cacheWordid (w :: ws) s.db.word) v :=
      holds_setTable (h.below hwarm)
    refine ⟨setTable s.cacheWordid (w :: ws) s.db.word, ?_, ?_, ?_, ?_, ?_, ?_, ?_, ?_⟩
    · rw [hscript, run_setWords hws]
    · rw [hstate]
    · rw [hstate]; simp only; omega
    · rw [hstate, lastWordid_warm hwarm]; simp
    · rw [hstate]; exact below_setTable (h.below hwarm)
    · exact prefix_setTable _ _ _
    · exact fun v hv => hheld v (by simp [hv])
    · exact fun _ => hheld w (by simp)
  · obtain ⟨id, hid, h0, hbelow, _⟩ := getLastWordid_spec key h
    have hlast := getLastWordid_cold key hwarm
    obtain rfl : s.lastWordid key = id := by rw [hid] at hlast; exact (congrArg Prod.fst hlast).symm
    have hclip : clipped (s.lastWordid key) = s.lastWordid key := clipped_of_lt h0 (by omega)
    have hset : sqlSetWord key w s = ([.insertWord (s.lastWordid key) (stored w)],
        { s with cacheWordid := s.lastWordid key }) := by
      rw [sqlSetWord_eq (hws w (by simp)).2, hid, hclip]
    have hrest : ∀ v ∈ ws, Settable v := fun v hv => hws v (by simp [hv])
    obtain ⟨hscript, hstate⟩ := mapM_wordScript htail hrest
      (s := { s with cacheWordid := s.lastWordid key }) (by simp only; omega) (by simp only; omega)
    have hbelow' := below_insertOrIgnore (stored w) hbelow (Int.le_refl _)
    rw [mapM_cons_eq, hset]
    refine ⟨setTable (s.lastWordid key) ws
      (s.db.word.insertOrIgnore ⟨s.lastWordid key, stored w⟩), ?_, ?_, ?_, ?_, ?_, ?_, ?_, ?_⟩
    · simp only [List.flatten_cons, hscript, List.cons_append, List.nil_append]
      rw [runScript_cons_ok (exec_insertWord (hws w (by simp)) s.db), run_setWords hrest]
    · rw [hstate]
    · rw [hstate]; simp only; omega
    · rw [hstate]; simp only; omega
    · rw [hstate]; exact below_setTable hbelow'
    · exact Table.prefix_insertOrIgnore.trans (prefix_setTable _ _ _)
    · exact holds_setTable hbelow'
    · intro hfirst
      rcases hfirst with hc | hh
      · exact absurd hc hwarm
      · exact hh.mono (Table.prefix_insertOrIgnore.trans (prefix_setTable _ _ _))

/-- Every word of the entry can be set, and the ids keep within eight digits. -/
structure WordsSet (cfg : Config) (env : Environment) (s : State) (e : Entry) : Prop where
  settable : ∀ w ∈ e.setWords ++ e.indexWords cfg, Settable w
  range : s.lastWordid env.key + (e.setWords.length + (e.indexWords cfg).length) < 100000000

theorem lastWordid_getLastPk (key rel : Int) (s : State) :
    (getLastPk key rel s).2.lastWordid key = s.lastWordid key := by
  simp only [State.lastWordid, getLastPk_db, getLastPk_cacheWordid]

theorem Parts.setsWords (p : Parts cfg env rel e s) (h : Counted s) (hw : WordsSet cfg env s e) :
    ∃ script words, p.first = script ++ (if e.isSynonym rel then [e.insertSynonym] else [])
        ++ [e.insertEntry (s.nextKey env.key rel) rel]
      ∧ SetsWords env.key (getLastPk env.key rel s).2 e.subjects e.setWords.tail script p.s₁
        words := by
  have hlen : e.setWords.length = e.setWords.tail.length + 1 := rfl
  obtain ⟨words, hwords⟩ := mapM_setsWords env.key e.subjects
    e.setWords.tail (getLastPk_counted env.key rel h)
    (fun v hv => hw.settable v (List.mem_append_left _ hv))
    (by rw [lastWordid_getLastPk]; have := hw.range; omega)
  have hgen := p.gen₁
  rw [genSqlAddEntry_eq, Prod.mk.injEq] at hgen
  exact ⟨_, words, hgen.1.symm, hgen.2 ▸ hwords⟩

theorem Parts.warm₂ (p : Parts cfg env rel e s) (h : Counted s) (hw : WordsSet cfg env s e) :
    -1 < p.s₂.cacheWordid
      ∧ p.s₂.cacheWordid ≤ s.lastWordid env.key + e.setWords.length := by
  obtain ⟨script, words, _, hwords⟩ := p.setsWords h hw
  have hlen : e.setWords.length = e.setWords.tail.length + 1 := rfl
  have hbound := hwords.bound
  rw [lastWordid_getLastPk] at hbound
  rw [p.exec₁, sqlExecute_cacheWordid]
  exact ⟨hwords.warm, by omega⟩

/-- The second script of a call that is not interrupted sets and relates every word. -/
theorem Parts.indexes (p : Parts cfg env rel e s) (h : Counted s) (hw : WordsSet cfg env s e)
    (hsecond : env.second = none) :
    ∃ words index, (sqlExecute env.second p.second p.s₃).1 = none
      ∧ (addEntry cfg env rel e s).2.db
        = { p.s₂.db with word := words, relWordFact := index }
      ∧ p.s₂.db.word.rows <+: words.rows
      ∧ (∀ w ∈ e.indexWords cfg, Holds words w)
      ∧ ((∀ w ∈ e.indexWords cfg, NoColumn w) → Indexed words (s.nextKey env.key rel)
        (if rel ≠ 0 then 2 else 1) (e.indexWords cfg) p.s₂.db.relWordFact index) := by
  obtain ⟨hwarm, hbound⟩ := p.warm₂ h hw
  have hsettable : ∀ w ∈ e.indexWords cfg, Settable w := fun w hv =>
    hw.settable w (List.mem_append_right _ hv)
  have hbelow := (p.counted₂ h).below hwarm
  have hrange := hw.range
  have hg : ∀ w s', (do return (← sqlSetWord env.key w) ++ [.insertIndex (sqlGetWord w)
      (s.nextKey env.key rel) (if rel ≠ 0 then 2 else 1)] : StateM State (List Statement)) s'
      = ((sqlSetWord env.key w s').1 ++ indexTail (s.nextKey env.key rel)
        (if rel ≠ 0 then 2 else 1) w, (sqlSetWord env.key w s').2) := fun _ _ => rfl
  obtain ⟨hscript, hstate⟩ := mapM_wordScript hg hsettable hwarm (by omega)
  have hsecondScript : p.second = wordScript (indexTail (s.nextKey env.key rel)
      (if rel ≠ 0 then 2 else 1)) p.s₂.cacheWordid (e.indexWords cfg) :=
    (congrArg Prod.fst p.gen₂).symm.trans hscript
  obtain ⟨index, hrun, hindexed⟩ := run_indexWords (s.nextKey env.key rel)
    (if rel ≠ 0 then 2 else 1) hsettable hbelow
  rw [← hsecondScript] at hrun
  refine ⟨_, index, ?_, ?_, prefix_setTable _ _ _, holds_setTable hbelow, hindexed⟩
  · simp only [sqlExecute, hsecond, p.db₃, hrun]
  · rw [p.db₄, hsecond, p.db₃, hrun]

end Freehal.Disk
