import Freehal.Disk.Lemmas.Statements

/-!
# What the scripts of an entry store

The scripts in closed form where every word can be set, and the words and index rows that are
there after them.
-/

namespace Freehal.Disk

open Lib (Table runScript bind_eq_ok runScript_append runScript_cons_ok)
open Universal (Config)

/-- `sql_set_word` sets the word, in one literal. -/
def Settable (word : Str) : Prop := '"' ∉ word ∧ word.head? ≠ some ' '

instance (word : Str) : Decidable (Settable word) := inferInstanceAs (Decidable (_ ∧ _))

/-- The literal is not taken for a column. -/
def NoColumn (word : Str) : Prop :=
  isName ["word"] (stored word) = false ∧ isName idNames (stored word) = false

instance (word : Str) : Decidable (NoColumn word) := inferInstanceAs (Decidable (_ ∧ _))

/-- A column holds the id of the word. -/
def Refers (words : Table WordRow.clash) (column : Option Int) (text : Str) : Prop :=
  ∃ id, column = some id ∧ ⟨id, stored text⟩ ∈ words.rows

def Holds (words : Table WordRow.clash) (text : Str) : Prop :=
  ∃ id, ⟨id, stored text⟩ ∈ words.rows

theorem Refers.mono {words words' : Table WordRow.clash} {column : Option Int} {text : Str}
    (h : Refers words column text) (hp : words.rows <+: words'.rows) :
    Refers words' column text := by
  obtain ⟨id, hid, hmem⟩ := h
  exact ⟨id, hid, hp.subset hmem⟩

theorem Holds.mono {words words' : Table WordRow.clash} {text : Str} (h : Holds words text)
    (hp : words.rows <+: words'.rows) : Holds words' text := by
  obtain ⟨id, hmem⟩ := h
  exact ⟨id, hp.subset hmem⟩

theorem mem_singleBlanks {c : Char} {text : Str} (h : c ∈ stored.singleBlanks text) :
    c ∈ text := by
  fun_induction stored.singleBlanks text with
  | case1 text ih =>
      rcases List.mem_cons.mp h with rfl | h
      · simp
      · simp [ih h]
  | case2 ch text _ ih =>
      rcases List.mem_cons.mp h with rfl | h
      · simp
      · simp [ih h]
  | case3 => exact h

theorem Settable.stored {word : Str} (h : Settable word) : '"' ∉ stored word := by
  intro hq
  unfold Disk.stored at hq
  split at hq
  · rename_i c text
    obtain ⟨ch, hch, hcq⟩ := List.mem_map.mp (mem_singleBlanks hq)
    have hq' : ch = '"' := by
      split at hcq
      · cases hcq
      · exact hcq
    subst hq'
    have : '"' ∈ c :: text := by
      split at hch
      · exact List.dropLast_subset _ hch
      · exact hch
    exact h.1 (List.mem_cons_of_mem _ this)
  · exact h.1 hq

theorem sqlGetWord_settable {word : Str} (h : Settable word) :
    sqlGetWord word = .selectId (stored word) := by
  simp [sqlGetWord, h.2]

theorem scalar_settable {word : Str} (h : Settable word) (db : Database) :
    db.scalar (sqlGetWord word) = .ok (db.wordId (stored word)) := by
  simp only [sqlGetWord_settable h, Database.scalar, literal, if_neg h.stored]
  rfl

theorem wordId_refers {word : Str} (db : Database) (h : NoColumn word) (hw : Holds db.word word) :
    Refers db.word (db.wordId (stored word)) word := by
  obtain ⟨id, hmem⟩ := hw
  cases hf : db.word.rows.find? (·.is (stored word)) with
  | none =>
      have := List.find?_eq_none.mp hf _ hmem
      simp [WordRow.is, h.1, h.2] at this
  | some row =>
      have hrow := List.find?_some hf
      simp only [WordRow.is, h.1, h.2, Bool.false_eq_true, if_false, decide_eq_true_eq] at hrow
      have hmem' := List.mem_of_find?_eq_some hf
      refine ⟨row.id, by simp [Database.wordId, hf], ?_⟩
      rw [← hrow]
      exact hmem'

/-! ## Setting words -/

/-- The table after setting words with the ids behind `c`. -/
def setTable : Int → List Str → Table WordRow.clash → Table WordRow.clash
  | _, [], t => t
  | c, w :: ws, t => setTable (c + 1) ws (t.insertOrIgnore ⟨c + 1, stored w⟩)

theorem prefix_setTable (c : Int) (ws : List Str) (t : Table WordRow.clash) :
    t.rows <+: (setTable c ws t).rows := by
  induction ws generalizing c t with
  | nil => exact List.prefix_rfl
  | cons w ws ih => exact Table.prefix_insertOrIgnore.trans (ih _ _)

theorem below_setTable {c : Int} {ws : List Str} {t : Table WordRow.clash} (h : Below t c) :
    Below (setTable c ws t) (c + ws.length) := by
  induction ws generalizing c t with
  | nil => simpa [setTable] using h
  | cons w ws ih =>
      have := ih (below_insertOrIgnore (stored w) (h.mono (by omega)) (Int.le_refl (c + 1)))
      simp only [setTable, List.length_cons]
      exact this.mono (by omega)

/-- A fresh id sets its word. -/
theorem holds_insertOrIgnore {t : Table WordRow.clash} {c : Int} (h : Below t c) (w : Str) :
    Holds (t.insertOrIgnore ⟨c + 1, stored w⟩) w := by
  rcases Table.insertOrIgnore_self t ⟨c + 1, stored w⟩ with hmem | ⟨r, hr, hclash⟩
  · exact ⟨_, hmem⟩
  · simp only [WordRow.clash, Bool.or_eq_true, decide_eq_true_eq] at hclash
    rcases hclash with hid | hword
    · have := h r hr
      omega
    · exact ⟨r.id, Table.prefix_insertOrIgnore.subset (hword ▸ hr)⟩

theorem holds_setTable {c : Int} {ws : List Str} {t : Table WordRow.clash} (h : Below t c) :
    ∀ w ∈ ws, Holds (setTable c ws t) w := by
  induction ws generalizing c t with
  | nil => intro w hw; cases hw
  | cons v ws ih =>
      intro w hw
      have hbelow : Below (t.insertOrIgnore ⟨c + 1, stored v⟩) (c + 1) :=
        below_insertOrIgnore _ (h.mono (by omega)) (Int.le_refl _)
      rcases List.mem_cons.mp hw with rfl | hw
      · exact (holds_insertOrIgnore h w).mono (prefix_setTable _ _ _)
      · exact ih hbelow w hw

/-! ## Scripts in closed form -/

/-- Sets each word with the next id behind `c`, and goes on with `tail` for it. -/
def wordScript (tail : Str → List Statement) : Int → List Str → List Statement
  | _, [] => []
  | c, w :: ws => .insertWord (c + 1) (stored w) :: tail w ++ wordScript tail (c + 1) ws

theorem sqlSetWord_warm (key : Int) {w : Str} {s : State} (hw : Settable w)
    (hwarm : -1 < s.cacheWordid) (hrange : s.cacheWordid + 1 < 100000000) :
    sqlSetWord key w s = ([.insertWord (s.cacheWordid + 1) (stored w)],
      { s with cacheWordid := s.cacheWordid + 1 }) := by
  have hclip : clipped (s.cacheWordid + 1) = s.cacheWordid + 1 := clipped_of_lt (by omega) hrange
  rw [sqlSetWord_eq hw.2, getLastWordid_warm hwarm, hclip]

/-- The script of a list of words is the script of the first one and that of the others. -/
theorem mapM_cons_eq (g : Str → StateM State (List Statement)) (w : Str) (ws : List Str)
    (s : State) :
    (w :: ws).mapM g s
      = ((g w s).1 :: (ws.mapM g (g w s).2).1, (ws.mapM g (g w s).2).2) := by
  rw [List.mapM_cons]
  rfl

theorem mapM_wordScript {key : Int} {tail : Str → List Statement} {ws : List Str} {s : State}
    {g : Str → StateM State (List Statement)}
    (hg : ∀ w s, g w s = ((sqlSetWord key w s).1 ++ tail w, (sqlSetWord key w s).2))
    (hws : ∀ w ∈ ws, Settable w) (hwarm : -1 < s.cacheWordid)
    (hrange : s.cacheWordid + ws.length < 100000000) :
    (ws.mapM g s).1.flatten = wordScript tail s.cacheWordid ws
      ∧ (ws.mapM g s).2 = { s with cacheWordid := s.cacheWordid + ws.length } := by
  induction ws generalizing s with
  | nil =>
      have hzero : s = { s with cacheWordid := s.cacheWordid + ([] : List Str).length } := by simp
      exact ⟨rfl, hzero⟩
  | cons w ws ih =>
      simp only [List.length_cons] at hrange
      have hset := sqlSetWord_warm key (hws w (by simp)) hwarm (by omega)
      have hstep := hg w s
      rw [hset] at hstep
      obtain ⟨hscript, hstate⟩ := ih (s := { s with cacheWordid := s.cacheWordid + 1 })
        (fun v hv => hws v (by simp [hv])) (by simp only; omega) (by simp only; omega)
      rw [mapM_cons_eq, hstep]
      constructor
      · simp only [List.flatten_cons, hscript, wordScript, List.cons_append, List.nil_append]
      · simp only [hstate, List.length_cons]
        congr 1
        omega

/-! ## Running them -/

theorem exec_insertWord {id : Int} {w : Str} (hw : Settable w) (db : Database) :
    (Statement.insertWord id (stored w)).exec db
      = .ok { db with word := db.word.insertOrIgnore ⟨id, stored w⟩ } := by
  simp only [Statement.exec, literal, if_neg hw.stored]
  rfl

theorem run_setWords {c : Int} {ws : List Str} (hws : ∀ w ∈ ws, Settable w) (db : Database) :
    runScript Statement.exec .other none (wordScript (fun _ => []) c ws) db
      = ({ db with word := setTable c ws db.word }, none) := by
  induction ws generalizing c db with
  | nil => rfl
  | cons w ws ih =>
      simp only [wordScript, List.nil_append, List.cons_append]
      rw [runScript_cons_ok (exec_insertWord (hws w (by simp)) db),
        ih fun v hv => hws v (by simp [hv])]
      rfl

/-- The index after the second script: rows for every word, and no others that are new. -/
structure Indexed (words : Table WordRow.clash) (pk table : Int) (ws : List Str)
    (index index' : Table IndexRow.clash) : Prop where
  old : index.rows <+: index'.rows
  complete : ∀ w ∈ ws, ∃ id, ⟨id, stored w⟩ ∈ words.rows ∧ ⟨some id, pk, table⟩ ∈ index'.rows
  sound : ∀ row ∈ index'.rows, row ∈ index.rows
    ∨ ∃ w ∈ ws, ∃ id, ⟨id, stored w⟩ ∈ words.rows ∧ row = ⟨some id, pk, table⟩

theorem exec_insertIndex {w : Str} (pk table : Int) (db : Database) (hw : Settable w) :
    (Statement.insertIndex (sqlGetWord w) pk table).exec db = .ok { db with
      relWordFact := db.relWordFact.insertOrIgnore ⟨db.wordId (stored w), pk, table⟩ } := by
  simp only [Statement.exec, scalar_settable hw]
  rfl

theorem mem_insertIndex {t : Table IndexRow.clash} {id fact table : Int} :
    ⟨some id, fact, table⟩ ∈ (t.insertOrIgnore ⟨some id, fact, table⟩).rows := by
  rcases Table.insertOrIgnore_self t ⟨some id, fact, table⟩ with h | ⟨r, hr, h⟩
  · exact h
  · simp only [IndexRow.clash, Option.isSome_some, Bool.true_and, decide_eq_true_eq] at h
    exact Table.prefix_insertOrIgnore.subset (h ▸ hr)

/-- The statements for the words of the index. -/
def indexTail (pk table : Int) (w : Str) : List Statement :=
  [.insertIndex (sqlGetWord w) pk table]

theorem run_indexWords {c : Int} (pk table : Int) {ws : List Str} {db : Database}
    (hws : ∀ w ∈ ws, Settable w) (hb : Below db.word c) :
    ∃ index, runScript Statement.exec .other none (wordScript (indexTail pk table) c ws) db
        = ({ db with word := setTable c ws db.word, relWordFact := index }, none)
      ∧ ((∀ w ∈ ws, NoColumn w) →
        Indexed (setTable c ws db.word) pk table ws db.relWordFact index) := by
  induction ws generalizing c db with
  | nil =>
      exact ⟨db.relWordFact, rfl,
        fun _ => ⟨List.prefix_rfl, fun _ hw => (by cases hw), fun _ h => Or.inl h⟩⟩
  | cons w ws ih =>
      have hw := hws w (by simp)
      have hindex := exec_insertIndex pk table
        { db with word := db.word.insertOrIgnore ⟨c + 1, stored w⟩ } hw
      have hbelow := below_insertOrIgnore (stored w) (hb.mono (show c ≤ c + 1 by omega))
        (Int.le_refl (c + 1))
      obtain ⟨index, hrun, hix⟩ := @ih (c + 1)
        { db with
          word := db.word.insertOrIgnore ⟨c + 1, stored w⟩
          relWordFact := db.relWordFact.insertOrIgnore ⟨Database.wordId
            { db with word := db.word.insertOrIgnore ⟨c + 1, stored w⟩ } (stored w), pk, table⟩ }
        (fun v hv => hws v (by simp [hv])) hbelow
      refine ⟨index, ?_, fun hcol => ?_⟩
      · simp only [wordScript, indexTail, List.cons_append, List.nil_append]
        rw [runScript_cons_ok (exec_insertWord hw db), runScript_cons_ok hindex]
        exact hrun
      · obtain ⟨id, hid, hmem⟩ := wordId_refers
          { db with word := db.word.insertOrIgnore ⟨c + 1, stored w⟩ } (hcol w (by simp))
          (holds_insertOrIgnore hb w)
        simp only [hid] at hix
        have hix := hix fun v hv => hcol v (by simp [hv])
        have hmem' := (prefix_setTable (c + 1) ws _).subset hmem
        refine ⟨Table.prefix_insertOrIgnore.trans hix.old, ?_, ?_⟩
        · intro v hv
          rcases List.mem_cons.mp hv with rfl | hv
          · exact ⟨id, hmem', hix.old.subset mem_insertIndex⟩
          · exact hix.complete v hv
        · intro row hrow
          rcases hix.sound row hrow with hrow | ⟨v, hv, hrow⟩
          · rcases Table.mem_insertOrIgnore hrow with hrow | rfl
            · exact Or.inl hrow
            · exact Or.inr ⟨w, by simp, id, hmem', rfl⟩
          · exact Or.inr ⟨v, by simp [hv], hrow⟩

end Freehal.Disk
