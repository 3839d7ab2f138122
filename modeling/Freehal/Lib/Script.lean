import Mathlib.Data.List.Basic

/-!
# Scripts that stop at the first failing statement

The statements before the failing one stay in effect. A statement may also be interrupted from
outside, for a reason that lies neither in it nor in the state.
-/

namespace Freehal.Lib

/-- What comes out of two steps of which the first may fail. -/
theorem bind_eq_ok {ε α β : Type} {x : Except ε α} {f : α → Except ε β} {b : β} :
    (x >>= f) = .ok b ↔ ∃ a, x = .ok a ∧ f a = .ok b := by
  cases x <;> simp [bind, Except.bind]

variable {σ ι ε : Type} (exec : ι → σ → Except ε σ) (outside : ε)

/-- `interrupt` is the number of the statement that is interrupted from outside. -/
def runScript : Option Nat → List ι → σ → σ × Option ε
  | _, [], s => (s, none)
  | some 0, _ :: _, s => (s, some outside)
  | interrupt, i :: script, s =>
      match exec i s with
      | .ok s' => runScript (interrupt.map (· - 1)) script s'
      | .error e => (s, some e)

variable {exec outside}

@[simp] theorem runScript_nil {interrupt : Option Nat} {s : σ} :
    runScript exec outside interrupt [] s = (s, none) := by
  cases interrupt <;> rfl

theorem runScript_interrupted {i : ι} {script : List ι} {s : σ} :
    runScript exec outside (some 0) (i :: script) s = (s, some outside) := rfl

theorem runScript_cons {interrupt : Option Nat} (h : interrupt ≠ some 0) (i : ι) (script : List ι)
    (s : σ) : runScript exec outside interrupt (i :: script) s = match exec i s with
      | .ok s' => runScript exec outside (interrupt.map (· - 1)) script s'
      | .error e => (s, some e) := by
  cases interrupt with
  | none => rfl
  | some k =>
      cases k with
      | zero => exact absurd rfl h
      | succ k => rfl

theorem runScript_cons_ok {i : ι} {script : List ι} {s s' : σ} (h : exec i s = .ok s') :
    runScript exec outside none (i :: script) s = runScript exec outside none script s' := by
  simp [runScript, h]

/-- What every statement keeps, a script keeps, wherever it stops. -/
theorem runScript_induction {P : σ → Prop} {interrupt : Option Nat} {script : List ι} {s : σ}
    (hs : P s) (step : ∀ i ∈ script, ∀ s s', P s → exec i s = .ok s' → P s') :
    P (runScript exec outside interrupt script s).1 := by
  induction script generalizing interrupt s with
  | nil => simpa using hs
  | cons i script ih =>
      by_cases hi : interrupt = some 0
      · rw [hi, runScript_interrupted]; exact hs
      · rw [runScript_cons hi]
        cases he : exec i s with
        | error e => exact hs
        | ok s' => exact ih (step i (by simp) s s' hs he) fun j hj => step j (by simp [hj])

/-- A script goes on where its first part ended. -/
theorem runScript_append {first second : List ι} {s s' : σ}
    (h : runScript exec outside none first s = (s', none)) :
    runScript exec outside none (first ++ second) s = runScript exec outside none second s' := by
  induction first generalizing s with
  | nil => cases h; rfl
  | cons i first ih =>
      simp only [runScript, Option.map_none, List.cons_append] at h ⊢
      split at h
      · exact ih h
      · cases h

theorem runScript_cons_split {i : ι} {script : List ι} {s s' : σ}
    (h : runScript exec outside none (i :: script) s = (s', none)) :
    ∃ s₁, exec i s = .ok s₁ ∧ runScript exec outside none script s₁ = (s', none) := by
  simp only [runScript, Option.map_none] at h
  split at h
  · exact ⟨_, ‹_›, h⟩
  · cases h

/-- A script that ends without an error executed each of its statements. -/
theorem runScript_split {first second : List ι} {i : ι} {s s' : σ}
    (h : runScript exec outside none (first ++ i :: second) s = (s', none)) :
    ∃ s₁ s₂, runScript exec outside none first s = (s₁, none) ∧ exec i s₁ = .ok s₂
      ∧ runScript exec outside none second s₂ = (s', none) := by
  induction first generalizing s with
  | nil =>
      obtain ⟨s₂, hexec, h⟩ := runScript_cons_split h
      exact ⟨s, s₂, rfl, hexec, h⟩
  | cons j first ih =>
      obtain ⟨s₀, hexec, h⟩ := runScript_cons_split h
      obtain ⟨s₁, s₂, h₁, h₂, h₃⟩ := ih h
      exact ⟨s₁, s₂, (runScript_cons_ok hexec).trans h₁, h₂, h₃⟩

theorem exec_of_mem {script : List ι} {i : ι} {s s' : σ} (hi : i ∈ script)
    (h : runScript exec outside none script s = (s', none)) : ∃ s₁ s₂, exec i s₁ = .ok s₂ := by
  obtain ⟨first, second, rfl⟩ := List.append_of_mem hi
  obtain ⟨s₁, s₂, _, hexec, _⟩ := runScript_split h
  exact ⟨s₁, s₂, hexec⟩

/-- A script ends without an error where every statement succeeds and keeps what the next ones
need. -/
theorem runScript_ok {P : σ → Prop} {script : List ι} {s : σ} (hs : P s)
    (step : ∀ i ∈ script, ∀ s, P s → ∃ s', exec i s = .ok s' ∧ P s') :
    ∃ s', runScript exec outside none script s = (s', none) ∧ P s' := by
  induction script generalizing s with
  | nil => exact ⟨s, rfl, hs⟩
  | cons i script ih =>
      obtain ⟨s', hexec, hs'⟩ := step i (by simp) s hs
      rw [runScript_cons_ok hexec]
      exact ih hs' fun j hj => step j (by simp [hj])

/-- An error comes from outside or from a statement. -/
theorem runScript_error {interrupt : Option Nat} {script : List ι} {s : σ} {e : ε}
    (h : (runScript exec outside interrupt script s).2 = some e) :
    e = outside ∨ ∃ i ∈ script, ∃ s', exec i s' = .error e := by
  induction script generalizing interrupt s with
  | nil => rw [runScript_nil] at h; cases h
  | cons i script ih =>
      by_cases hi : interrupt = some 0
      · rw [hi, runScript_interrupted] at h
        cases h
        exact Or.inl rfl
      · rw [runScript_cons hi] at h
        cases he : exec i s with
        | error e' =>
            rw [he] at h
            cases h
            exact Or.inr ⟨i, by simp, s, he⟩
        | ok s' =>
            rw [he] at h
            rcases ih h with h | ⟨j, hj, hexec⟩
            · exact Or.inl h
            · exact Or.inr ⟨j, by simp [hj], hexec⟩

/-- A script ends without an error, or its last statement had no effect. -/
theorem runScript_last {P : σ → Prop} {interrupt : Option Nat} {script : List ι} {last : ι} {s : σ}
    (hs : P s) (step : ∀ i ∈ script, ∀ s s', P s → exec i s = .ok s' → P s') :
    (runScript exec outside interrupt (script ++ [last]) s).2 = none
      ∨ P (runScript exec outside interrupt (script ++ [last]) s).1 := by
  induction script generalizing interrupt s with
  | nil =>
      rw [List.nil_append]
      by_cases hi : interrupt = some 0
      · rw [hi, runScript_interrupted]; exact Or.inr hs
      · rw [runScript_cons hi]
        cases he : exec last s with
        | error e => exact Or.inr hs
        | ok s' => exact Or.inl (by simp)
  | cons i script ih =>
      rw [List.cons_append]
      by_cases hi : interrupt = some 0
      · rw [hi, runScript_interrupted]; exact Or.inr hs
      · rw [runScript_cons hi]
        cases he : exec i s with
        | error e => exact Or.inr hs
        | ok s' => exact ih (step i (by simp) s s' hs he) fun j hj => step j (by simp [hj])

/-- A script that ends without an error was not interrupted. -/
theorem runScript_completed {interrupt : Option Nat} {script : List ι} {s s' : σ}
    (h : runScript exec outside interrupt script s = (s', none)) :
    runScript exec outside none script s = (s', none) ∧ ∀ k, interrupt = some k →
      script.length ≤ k := by
  induction script generalizing interrupt s with
  | nil => exact ⟨by simpa using h, by simp⟩
  | cons i script ih =>
      cases interrupt with
      | none => exact ⟨h, fun k hk => by cases hk⟩
      | some k =>
          cases k with
          | zero => simp [runScript] at h
          | succ k =>
              simp only [runScript, Option.map_some, Nat.add_sub_cancel] at h ⊢
              split at h
              · obtain ⟨hrun, hk⟩ := ih h
                have := hk k rfl
                exact ⟨by simp [*], fun k' hk' => by cases hk'; simp; omega⟩
              · cases h

/-- An interruption behind the end changes nothing. -/
theorem runScript_of_length_le {k : Nat} {script : List ι} (h : script.length ≤ k) (s : σ) :
    runScript exec outside (some k) script s = runScript exec outside none script s := by
  induction script generalizing k s with
  | nil => simp
  | cons i script ih =>
      cases k with
      | zero => simp at h
      | succ k =>
          simp only [runScript, Option.map_some, Nat.add_sub_cancel, Option.map_none]
          split
          · exact ih (by simpa using h) _
          · rfl

end Freehal.Lib
