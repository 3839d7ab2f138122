import Freehal.Disk.Lemmas.Histories
import Freehal.Disk.Sources

/-!
# Rows and the numbers of their files

Every row carries the number of the file that it was added from.
-/

namespace Freehal.Disk

open Lib (Table runScript bind_eq_ok run)
open Universal (Config)

variable {cfg : Config} {env : Environment} {rel id : Int} {e : Entry} {s : State}
  {db db' db'' : Database}

/-! ## New rows -/

/-- The statement stores rows of one file only. -/
def Statement.Filed (id : Int) : Statement → Prop
  | .insertSynonym _ _ _ _ fileid _ => fileid = id
  | .insertEntry _ _ _ _ _ _ _ _ fileid _ _ _ _ => fileid = id
  | .insertWord .. | .insertFlags .. | .insertIndex .. => True
  | _ => False

/-- The new rows are of one file. -/
structure Filed (id : Int) (db db' : Database) : Prop where
  facts : ∀ row ∈ db'.facts.rows, row ∈ db.facts.rows ∨ row.fileid = id
  clauses : ∀ row ∈ db'.clauses.rows, row ∈ db.clauses.rows ∨ row.fileid = id
  synonyms : ∀ row ∈ db'.synonym.rows, row ∈ db.synonym.rows ∨ row.fileid = id

theorem Filed.refl : Filed id db db := ⟨fun _ => Or.inl, fun _ => Or.inl, fun _ => Or.inl⟩

theorem Filed.trans (h : Filed id db db') (h' : Filed id db' db'') : Filed id db db'' where
  facts row hrow := (h'.facts row hrow).elim (h.facts row) Or.inr
  clauses row hrow := (h'.clauses row hrow).elim (h.clauses row) Or.inr
  synonyms row hrow := (h'.synonyms row hrow).elim (h.synonyms row) Or.inr

theorem mem_insertInto {ρ : Type} {clash : ρ → ρ → Bool} {t t' : Table clash} {row r : ρ}
    (h : insertInto t row = .ok t') (hr : r ∈ t'.rows) : r ∈ t.rows ∨ r = row := by
  rw [(insertInto_eq_ok h).2] at hr
  exact (List.mem_append.mp hr).imp id List.mem_singleton.mp

theorem exec_filed {i : Statement} (hi : i.Filed id) (h : i.exec db = .ok db') :
    Filed id db db' := by
  cases i with
  | insertWord wordid word =>
      simp only [Statement.exec, bind_eq_ok] at h
      obtain ⟨_, _, h⟩ := h
      cases h
      exact { Filed.refl with }
  | insertSynonym a aLast b bLast fileid line =>
      obtain rfl : fileid = id := hi
      simp only [Statement.exec, bind_eq_ok] at h
      obtain ⟨_, _, _, _, _, _, _, _, _, _, h⟩ := h
      cases h
      refine { @Filed.refl fileid db with synonyms := fun row hrow => ?_ }
      exact (Table.mem_insertOrIgnore hrow).imp_right fun heq => by rw [heq]
  | insertEntry clause pk v s o a q p fileid l r tr ol =>
      obtain rfl : fileid = id := hi
      simp only [Statement.exec, bind_eq_ok] at h
      obtain ⟨_, _, _, _, _, _, _, _, _, _, _, _, h⟩ := h
      cases clause with
      | true =>
          obtain ⟨t, ht, h⟩ := bind_eq_ok.mp h
          cases h
          refine { @Filed.refl fileid db with clauses := fun row hrow => ?_ }
          exact (mem_insertInto ht hrow).imp_right fun heq => by rw [heq]
      | false =>
          obtain ⟨t, ht, h⟩ := bind_eq_ok.mp h
          cases h
          refine { @Filed.refl fileid db with facts := fun row hrow => ?_ }
          exact (mem_insertInto ht hrow).imp_right fun heq => by rw [heq]
  | insertFlags clause fact flags =>
      cases clause with
      | true =>
          obtain ⟨t, ht, h⟩ := bind_eq_ok.mp h
          cases h
          exact { Filed.refl with }
      | false =>
          obtain ⟨t, ht, h⟩ := bind_eq_ok.mp h
          cases h
          exact { Filed.refl with }
  | insertIndex word fact table =>
      obtain ⟨_, _, h⟩ := bind_eq_ok.mp h
      cases h
      exact { Filed.refl with }
  | deleteRecord key => cases hi
  | deleteFileid clause fileid => cases hi
  | deleteSynonyms fileid => cases hi

theorem runScript_filed (interrupt : Option Nat) {script : List Statement}
    (hs : ∀ i ∈ script, i.Filed id) (db : Database) :
    Filed id db (runScript Statement.exec .other interrupt script db).1 := by
  apply Lib.runScript_induction Filed.refl
  intro i hi db₁ db₂ h₁ h₂
  exact h₁.trans (exec_filed (hs i hi) h₂)

theorem genSqlAddEntry_filed (key pk rel : Int) (e : Entry) (s : State) :
    ∀ i ∈ (genSqlAddEntry key pk rel e s).1 ++ genSqlAddVerbFlags pk rel e,
      i.Filed (fileid e.filename) :=
  genSqlAddEntry_forall (P := fun i => i.Filed (fileid e.filename)) (fun _ _ => trivial) rfl rfl
    trivial s

theorem genSqlAddWordFactRelations_filed (cfg : Config) (key pk rel : Int) (e : Entry)
    (s : State) : ∀ i ∈ (genSqlAddWordFactRelations cfg key pk rel e s).1,
      i.Filed (fileid e.filename) :=
  genSqlAddWordFactRelations_forall (fun _ _ => trivial) (fun _ => trivial) s

theorem addEntry_filed :
    Filed (fileid e.filename) s.db (addEntry cfg env rel e s).2.db := by
  have p := parts cfg env rel e s
  have hfirst := genSqlAddEntry_filed env.key (s.nextKey env.key rel) rel e
    (getLastPk env.key rel s).2
  have hsecond := genSqlAddWordFactRelations_filed cfg env.key (s.nextKey env.key rel) rel e p.s₂
  rw [p.gen₁] at hfirst
  rw [p.gen₂] at hsecond
  have h₁ := runScript_filed env.first hfirst p.s₁.db
  have h₂ := runScript_filed env.second hsecond p.s₃.db
  rw [← p.db₂, p.db₁] at h₁
  rw [← p.db₄, p.db₃] at h₂
  exact h₁.trans h₂

theorem exec_delete_filed {i : Statement} (hi : isDelete i) (h : i.exec db = .ok db') :
    Filed id db db' := by
  cases i with
  | deleteRecord key =>
      simp only [Statement.exec, bind_eq_ok] at h
      obtain ⟨_, _, h⟩ := h
      cases h
      exact { @Filed.refl id db with facts := fun row h => Or.inl (List.mem_of_mem_filter h) }
  | deleteFileid clause fileid =>
      cases clause with
      | true =>
          cases h
          exact { @Filed.refl id db with clauses := fun row h => Or.inl (List.mem_of_mem_filter h) }
      | false =>
          cases h
          exact { @Filed.refl id db with facts := fun row h => Or.inl (List.mem_of_mem_filter h) }
  | deleteSynonyms fileid =>
      cases h
      exact { @Filed.refl id db with synonyms := fun row h => Or.inl (List.mem_of_mem_filter h) }
  | _ => cases hi

theorem sqlExecute_delete_filed {script : List Statement} (hs : ∀ i ∈ script, isDelete i) :
    Filed id s.db (sqlExecute none script s).2.db := by
  rw [sqlExecute_db]
  apply Lib.runScript_induction Filed.refl
  intro i hi db₁ db₂ h₁ h₂
  exact h₁.trans (exec_delete_filed (hs i hi) h₂)

/-- The rows that a step adds are of the file of the operation. -/
theorem step_filed (op : Operation) : Filed (fileid op.filename) s.db (step cfg s op).db := by
  cases ho : op.added with
  | some call =>
      obtain ⟨env, rel, e⟩ := call
      have hname : e.filename = op.filename := by
        cases op with
        | addFact env' e' =>
            simp only [Operation.added] at ho
            split at ho
            · cases ho
            · cases ho; rfl
        | addClause env' rel' e' =>
            simp only [Operation.added] at ho
            split at ho
            · cases ho
            · cases ho; rfl
        | _ => cases ho
      rw [step_added ho, ← hname]
      exact addEntry_filed
  | none =>
      cases op with
      | addFact env e =>
          simp only [Operation.added] at ho
          split at ho
          · rename_i hr
            simp only [step, diskAddFact, hr, if_true]
            exact Filed.refl
          · cases ho
      | addClause env rel e =>
          simp only [Operation.added] at ho
          split at ho
          · rename_i hr
            simp only [step, diskAddClause, hr, if_true]
            exact Filed.refl
          · cases ho
      | delRecord key =>
          simp only [step, diskDelRecord]
          split
          · exact Filed.refl
          · exact sqlExecute_delete_filed (by simp [isDelete])
      | deleteEverythingFrom filename =>
          have hscript : ∀ i ∈ [Statement.deleteFileid true (fileid filename),
              .deleteFileid false (fileid filename), .deleteSynonyms (fileid filename)],
              isDelete i := by simp [isDelete]
          exact sqlExecute_delete_filed hscript
      | begin_ => exact Filed.refl
      | restart => exact Filed.refl

/-! ## Origins -/

section

variable {ρ : Type} [DecidableEq ρ] {number : ρ → Int} {rows rows' : List ρ} {o : Origins ρ}
  {filename : Str} {p : ρ × Str}

/-- The origins are those of the rows, and the rows carry the numbers of their files. -/
structure Numbered (number : ρ → Int) (rows : List ρ) (o : Origins ρ) : Prop where
  stored : ∀ p ∈ o, p.1 ∈ rows
  number : ∀ p ∈ o, number p.1 = fileid p.2
  known : ∀ row ∈ rows, ∃ name, (row, name) ∈ o

theorem mem_update : p ∈ o.update rows rows' filename
    ↔ p.1 ∈ rows' ∧ (p ∈ o ∨ p.1 ∉ rows ∧ p.2 = filename) := by
  obtain ⟨row, name⟩ := p
  simp only [Origins.update, List.mem_append, List.mem_filter, List.mem_map, decide_eq_true_eq,
    Prod.mk.injEq]
  constructor
  · intro h
    rcases h with ⟨hmem, hrow⟩ | ⟨r, ⟨hr, hnew⟩, rfl, rfl⟩
    · exact ⟨hrow, Or.inl hmem⟩
    · exact ⟨hr, Or.inr ⟨hnew, rfl⟩⟩
  · intro h
    obtain ⟨hrow, h⟩ := h
    rcases h with hmem | ⟨hnew, rfl⟩
    · exact Or.inl ⟨hmem, hrow⟩
    · exact Or.inr ⟨row, ⟨hrow, hnew⟩, rfl, rfl⟩

theorem Numbered.update (h : Numbered number rows o)
    (hnew : ∀ row ∈ rows', row ∈ rows ∨ number row = fileid filename) :
    Numbered number rows' (o.update rows rows' filename) where
  stored p hp := (mem_update.mp hp).1
  number p hp := by
    obtain ⟨hrow, hp⟩ := mem_update.mp hp
    rcases hp with hp | ⟨hp, hname⟩
    · exact h.number p hp
    · rw [hname]; exact (hnew p.1 hrow).resolve_left hp
  known row hrow := by
    by_cases hold : row ∈ rows
    · obtain ⟨name, hname⟩ := h.known row hold
      exact ⟨name, mem_update.mpr ⟨hrow, Or.inl hname⟩⟩
    · exact ⟨filename, mem_update.mpr ⟨hrow, Or.inr ⟨hold, rfl⟩⟩⟩

end

/-- The three tables of a library with their origins. -/
structure Library.Numbered (l : Library) : Prop where
  facts : Disk.Numbered (·.fileid) l.state.db.facts.rows l.facts
  clauses : Disk.Numbered (·.fileid) l.state.db.clauses.rows l.clauses
  synonyms : Disk.Numbered (·.fileid) l.state.db.synonym.rows l.synonyms

theorem numbered_run (cfg : Config) (ops : List FileOperation) :
    (run (Library.step cfg) Library.fresh ops).Numbered := by
  apply Lib.run_induction
  · exact ⟨⟨fun _ h => (by cases h), fun _ h => (by cases h), fun _ h => (by cases h)⟩,
      ⟨fun _ h => (by cases h), fun _ h => (by cases h), fun _ h => (by cases h)⟩,
      ⟨fun _ h => (by cases h), fun _ h => (by cases h), fun _ h => (by cases h)⟩⟩
  · intro l op h
    cases op with
    | operation op =>
        have hnew : Filed (fileid op.filename) l.state.db (step cfg l.state op).db := step_filed op
        exact ⟨h.facts.update hnew.facts, h.clauses.update hnew.clauses,
          h.synonyms.update hnew.synonyms⟩
    | addFilename filename => exact ⟨h.facts, h.clauses, h.synonyms⟩

/-! ## Deleting -/

/-- The statements of the deletion, one after the other. -/
theorem diskDeleteEverythingFrom_db (filename : Str) (s : State) :
    (diskDeleteEverythingFrom filename s).2.db = { s.db with
      clauses := s.db.clauses.delete fun row => row.fileid = fileid filename
      facts := s.db.facts.delete fun row => row.fileid = fileid filename
      synonym := s.db.synonym.delete fun row => row.fileid = fileid filename } := rfl

section

variable {ρ : Type} [DecidableEq ρ] {number : ρ → Int} {rows : List ρ} {o : Origins ρ}
  {filename name : Str} {p : ρ × Str}

/-- After a deletion those origins are left whose file has another number. -/
theorem Numbered.mem_delete (h : Numbered number rows o) :
    p ∈ o.update rows (rows.filter fun row => !decide (number row = fileid filename)) name
      ↔ p ∈ o ∧ fileid p.2 ≠ fileid filename := by
  rw [mem_update, List.mem_filter]
  constructor
  · intro hp
    obtain ⟨⟨hrow, hnumber⟩, hp⟩ := hp
    have hp : p ∈ o := hp.resolve_right fun hr => hr.1 hrow
    refine ⟨hp, ?_⟩
    rw [← h.number p hp]
    simpa using hnumber
  · intro hp
    refine ⟨⟨h.stored p hp.1, ?_⟩, Or.inl hp.1⟩
    rw [← h.number p hp.1] at hp
    simpa using hp.2

end

/-! ## The table of files -/

/-- The table knows the first of the names with each number. -/
structure Lists (files : Files) (names : List Str) : Prop where
  number : ∀ file ∈ files.rows, file.id = fileid file.filename
  first : ∀ i, files.rows.find? (·.id = i) = (names.find? (fileid · = i)).map (⟨i, ·⟩)

theorem Lists.add {files : Files} {names : List Str} (h : Lists files names) (name : Str) :
    Lists (files.insertOrIgnore ⟨fileid name, name⟩) (names ++ [name]) := by
  constructor
  · intro file hfile
    rcases Table.mem_insertOrIgnore hfile with hfile | rfl
    · exact h.number file hfile
    · rfl
  · intro i
    rw [List.find?_append]
    by_cases hfree : files.Free ⟨fileid name, name⟩
    · rw [Table.rows_insertOrIgnore hfree, List.find?_append, h.first i]
      by_cases hi : fileid name = i
      · cases names.find? (fileid · = i) <;> simp [hi]
      · simp [hi]
    · rw [Table.insertOrIgnore_of_not_free hfree, h.first i]
      obtain ⟨file, hfile, hclash⟩ := Table.not_free hfree
      have hid : file.id = fileid name := by
        simp only [FileRow.clash, Bool.or_eq_true, decide_eq_true_eq] at hclash
        rcases hclash with hid | hname
        · exact hid.symm
        · rw [h.number file hfile, ← hname]
      by_cases hi : fileid name = i
      · subst hi
        have hsome : (files.rows.find? (·.id = fileid name)).isSome :=
          List.find?_isSome.mpr ⟨file, hfile, by simpa using hid⟩
        rw [h.first] at hsome
        cases hnames : names.find? (fileid · = fileid name) with
        | none => rw [hnames] at hsome; cases hsome
        | some first => rfl
      · simp [hi]

theorem lists_run (cfg : Config) (ops : List FileOperation) :
    Lists (run (Library.step cfg) Library.fresh ops).files
      (ops.filterMap FileOperation.registered) := by
  induction ops using List.reverseRecOn with
  | nil => exact ⟨fun _ h => (by cases h), fun _ => rfl⟩
  | append_singleton ops op ih =>
      rw [Lib.run_append, List.filterMap_append]
      cases op with
      | operation op =>
          have hnames : [FileOperation.operation op].filterMap FileOperation.registered = [] := rfl
          rw [hnames, List.append_nil]
          exact ih
      | addFilename name =>
          rw [Lib.run_cons, Lib.run_nil]
          simp only [Library.step, diskAddFilename, literal]
          by_cases hq : '"' ∈ name
          · have hnames : [FileOperation.addFilename name].filterMap FileOperation.registered
                = [] := by simp [FileOperation.registered, hq]
            rw [hnames, List.append_nil, if_pos hq]
            exact ih
          · have hnames : [FileOperation.addFilename name].filterMap FileOperation.registered
                = [name] := by simp [FileOperation.registered, hq]
            rw [hnames, if_neg hq]
            exact ih.add name

/-! ## Reading the source of a record -/

theorem digitsOf_decimal (n : Nat) : numeral.digitsOf (Lib.decimal n) = .ok (n : Int) := by
  have hdigits : (Lib.decimal n).all Char.isDigit = true :=
    List.all_eq_true.mpr fun c hc => Lib.isDigit_of_mem_decimal hc
  rw [numeral.digitsOf, if_pos ⟨Lib.decimal_ne_nil n, hdigits⟩, Lib.ofDigitChars_decimal]

theorem numeral_signed (i : Int) : numeral (Lib.signed i) = .ok i := by
  unfold Lib.signed
  split
  · rename_i hi
    have hneg : -(i.natAbs : Int) = i := by omega
    rw [numeral, digitsOf_decimal]
    exact congrArg Except.ok hneg
  · rename_i hi
    have hminus : ∀ digits, Lib.decimal i.natAbs ≠ '-' :: digits := by
      intro digits heq
      have hmem : '-' ∈ Lib.decimal i.natAbs := by rw [heq]; simp
      exact Lib.not_mem_decimal (by decide) hmem
    have habs : (i.natAbs : Int) = i := by omega
    rw [numeral.eq_2 _ hminus, digitsOf_decimal, habs]

theorem recordId_signed (db : Database) (i : Int) :
    db.recordId (Lib.signed i) = .ok (some i) := by
  have hne : Lib.signed i ≠ ['a'] := by
    intro heq
    have hnum := numeral_signed i
    rw [heq] at hnum
    cases hnum
  rw [Database.recordId, if_neg hne, numeral_signed]
  rfl

theorem find_fact {row : FactRow} (h : row ∈ db.facts.rows) :
    db.facts.rows.find? (·.id = row.id) = some row := by
  cases hf : db.facts.rows.find? (·.id = row.id) with
  | none =>
      have := List.find?_eq_none.mp hf row h
      simp at this
  | some r =>
      have hid : r.id = row.id := by simpa using List.find?_some hf
      have heq : r = row := Table.eq_of_clash (List.mem_of_find?_eq_some hf) h
        (by simpa [FactRow.clash] using hid) (by simpa [FactRow.clash] using hid.symm)
      rw [heq]

theorem diskGetSource_eq {files : Files} {names : List Str} (hfiles : Lists files names)
    {row : FactRow} (h : row ∈ db.facts.rows) : diskGetSource db files (Lib.signed row.id)
      = match names.find? (fileid · = row.fileid) with
        | some name => name ++ ':' :: Lib.signed row.line
        | none => [] := by
  simp only [diskGetSource, recordId_signed, find_fact h, hfiles.first]
  cases names.find? (fileid · = row.fileid) <;> rfl

end Freehal.Disk
