import Freehal.Disk.Lemmas.Calls

/-!
# Steps of a history

A step adds one entry, or removes rows and resets counters.
-/

namespace Freehal.Disk

open Lib (Table runScript bind_eq_ok run Meets)
open Universal (Config)

/-- The entry that an operation adds, as its scripts see it. -/
def Operation.added : Operation → Option (Environment × Int × Entry)
  | .addFact env e => if e.isRejected then none else some (env, 0, e)
  | .addClause env rel e =>
      if e.isRejected then none
      else some (env, rel, { e with onlyLogic := false, hasConditionalQuestionword := false })
  | _ => none

variable {cfg : Config} {s s' : State} {op : Operation} {env : Environment} {rel : Int} {e : Entry}

/-- What a step does that adds nothing. -/
structure Removes (s s' : State) : Prop where
  word : s'.db.word = s.db.word
  index : s'.db.relWordFact = s.db.relWordFact
  flags : s'.db.relFactFlag = s.db.relFactFlag
  facts : s'.db.facts.rows ⊆ s.db.facts.rows
  cacheWordid : s'.cacheWordid = s.cacheWordid ∨ s'.cacheWordid = -1

theorem Removes.refl : Removes s s := ⟨rfl, rfl, rfl, fun _ h => h, Or.inl rfl⟩

theorem diskAddFact_eq (h : e.isRejected = false) : diskAddFact cfg env e s
    = (if (addEntry cfg env 0 e s).1.2.isSome then none else some (addEntry cfg env 0 e s).1.1,
      (addEntry cfg env 0 e s).2) := by
  simp only [diskAddFact, h, Bool.false_eq_true, if_false, bind, StateT.bind]
  generalize addEntry cfg env 0 e s = r
  obtain ⟨⟨pk, error⟩, s'⟩ := r
  cases error <;> rfl

theorem diskAddClause_eq (h : e.isRejected = false) : (diskAddClause cfg env rel e s).2
    = (addEntry cfg env rel { e with onlyLogic := false, hasConditionalQuestionword := false }
      s).2 := by
  simp only [diskAddClause, h, Bool.false_eq_true, if_false, bind, StateT.bind]
  generalize addEntry cfg env rel _ s = r
  rfl

theorem step_added (h : op.added = some (env, rel, e)) :
    step cfg s op = (addEntry cfg env rel e s).2 := by
  cases op with
  | addFact env' e' =>
      simp only [Operation.added] at h
      split at h
      · cases h
      · rename_i hr
        cases h
        simp only [step, diskAddFact_eq (by simpa using hr)]
  | addClause env' rel' e' =>
      simp only [Operation.added] at h
      split at h
      · cases h
      · rename_i hr
        cases h
        simp only [step, diskAddClause_eq (by simpa using hr)]
  | delRecord key => cases h
  | deleteEverythingFrom filename => cases h
  | begin_ => cases h
  | restart => cases h

def isDelete : Statement → Prop
  | .deleteRecord _ | .deleteFileid _ _ | .deleteSynonyms _ => True
  | _ => False

theorem exec_isDelete {i : Statement} {db db' : Database} (hi : isDelete i)
    (h : i.exec db = .ok db') : db'.word = db.word ∧ db'.relWordFact = db.relWordFact
      ∧ db'.relFactFlag = db.relFactFlag ∧ db'.facts.rows ⊆ db.facts.rows := by
  cases i with
  | deleteRecord key =>
      simp only [Statement.exec, bind_eq_ok] at h
      obtain ⟨id, _, h⟩ := h
      cases h
      exact ⟨rfl, rfl, rfl, fun _ h => List.mem_of_mem_filter h⟩
  | deleteFileid clause fileid =>
      simp only [Statement.exec] at h
      split at h
      · cases h; exact ⟨rfl, rfl, rfl, fun _ h => h⟩
      · cases h; exact ⟨rfl, rfl, rfl, fun _ h => List.mem_of_mem_filter h⟩
  | deleteSynonyms fileid => cases h; exact ⟨rfl, rfl, rfl, fun _ h => h⟩
  | _ => cases hi

theorem sqlExecute_removes {script : List Statement} (hs : ∀ i ∈ script, isDelete i) :
    Removes s (sqlExecute none script s).2 := by
  suffices hdb : (sqlExecute none script s).2.db.word = s.db.word
      ∧ (sqlExecute none script s).2.db.relWordFact = s.db.relWordFact
      ∧ (sqlExecute none script s).2.db.relFactFlag = s.db.relFactFlag
      ∧ (sqlExecute none script s).2.db.facts.rows ⊆ s.db.facts.rows from
    ⟨hdb.1, hdb.2.1, hdb.2.2.1, hdb.2.2.2, Or.inl (sqlExecute_cacheWordid _ _ _)⟩
  rw [sqlExecute_db]
  apply Lib.runScript_induction (s := s.db)
    (P := fun db => db.word = s.db.word ∧ db.relWordFact = s.db.relWordFact
      ∧ db.relFactFlag = s.db.relFactFlag ∧ db.facts.rows ⊆ s.db.facts.rows)
    ⟨rfl, rfl, rfl, fun _ h => h⟩
  rintro i hi db db' ⟨hword, hindex, hflags, hfacts⟩ hexec
  obtain ⟨hw, hx, hf, hr⟩ := exec_isDelete (hs i hi) hexec
  exact ⟨hw.trans hword, hx.trans hindex, hf.trans hflags, fun _ h => hfacts (hr h)⟩

theorem step_other (h : op.added = none) : Removes s (step cfg s op) := by
  cases op with
  | addFact env' e' =>
      simp only [Operation.added] at h
      split at h
      · rename_i hr
        simp only [step, diskAddFact, hr, if_true]
        exact Removes.refl
      · cases h
  | addClause env' rel' e' =>
      simp only [Operation.added] at h
      split at h
      · rename_i hr
        simp only [step, diskAddClause, hr, if_true]
        exact Removes.refl
      · cases h
  | delRecord key =>
      simp only [step, diskDelRecord]
      split
      · exact Removes.refl
      · exact sqlExecute_removes (by simp [isDelete])
  | deleteEverythingFrom filename =>
      have hscript : ∀ i ∈ [Statement.deleteFileid true (fileid filename),
          .deleteFileid false (fileid filename), .deleteSynonyms (fileid filename)],
          isDelete i := by simp [isDelete]
      exact sqlExecute_removes hscript
  | begin_ => exact ⟨rfl, rfl, rfl, fun _ h => h, Or.inl rfl⟩
  | restart => exact ⟨rfl, rfl, rfl, fun _ h => h, Or.inr rfl⟩

theorem Removes.counted (h : Removes s s') (hs : Counted s) : Counted s' := by
  refine ⟨h.word ▸ hs.nonempty, fun hlt => ?_⟩
  rcases h.cacheWordid with hc | hc
  · rw [h.word, hc]; exact hs.below (hc ▸ hlt)
  · omega

theorem step_counted (cfg : Config) (op : Operation) (h : Counted s) : Counted (step cfg s op) := by
  cases ho : op.added with
  | none => exact (step_other ho).counted h
  | some call => rw [step_added ho]; exact addEntry_counted h

theorem fresh_counted : Counted State.fresh where
  nonempty := by decide
  below h := absurd h (by decide)

theorem run_counted (ops : List Operation) : Counted (run (step cfg) State.fresh ops) :=
  Lib.run_induction fresh_counted fun _ op => step_counted cfg op

/-- Words are never removed. -/
theorem step_word (op : Operation) :
    s.db.word.rows <+: (step cfg s op).db.word.rows := by
  cases ho : op.added with
  | none => rw [(step_other ho).word]
  | some call => rw [step_added ho]; exact addEntry_grows.word

theorem run_word (cfg : Config) (ops : List Operation) (s : State) :
    s.db.word.rows <+: (run (step cfg) s ops).db.word.rows := by
  apply Lib.run_induction (I := fun s' : State => s.db.word.rows <+: s'.db.word.rows) List.prefix_rfl
  exact fun s' op hI => hI.trans (step_word op)

/-- Flags are never removed. -/
theorem run_flags (cfg : Config) (ops : List Operation) (s : State) :
    s.db.relFactFlag.rows <+: (run (step cfg) s ops).db.relFactFlag.rows := by
  apply Lib.run_induction (I := fun s' : State => s.db.relFactFlag.rows <+: s'.db.relFactFlag.rows)
    List.prefix_rfl
  intro s' op hI
  apply hI.trans
  cases ho : op.added with
  | none => rw [(step_other ho).flags]
  | some call => rw [step_added ho]; exact addEntry_grows.flags

end Freehal.Disk
