import Mathlib.Data.List.Basic

/-!
# Runs

Runs of a deterministic system, and what holds along a run whose steps all meet a condition.
-/

namespace Freehal.Lib

variable {σ α : Type} (step : σ → α → σ)

/-- The state after the steps. -/
def run (s : σ) (as : List α) : σ := as.foldl step s

/-- Every step of the run meets the condition, which sees the state before the step. -/
def Meets (P : σ → α → Prop) : σ → List α → Prop
  | _, [] => True
  | s, a :: as => P s a ∧ Meets P (step s a) as

variable {step} {P : σ → α → Prop} {s : σ} {a : α} {as bs : List α}

@[simp] theorem run_nil : run step s [] = s := rfl

@[simp] theorem run_cons : run step s (a :: as) = run step (step s a) as := rfl

theorem run_append : run step s (as ++ bs) = run step (run step s as) bs := by
  simp [run]

theorem meets_append :
    Meets step P s (as ++ bs) ↔ Meets step P s as ∧ Meets step P (run step s as) bs := by
  induction as generalizing s with
  | nil => simp [Meets]
  | cons a as ih => simp [Meets, ih, and_assoc]

/-- What a step that meets the condition keeps, a run of such steps keeps. -/
theorem Meets.induction {I : σ → Prop} (h : Meets step P s as) (hs : I s)
    (hstep : ∀ s a, I s → P s a → I (step s a)) : I (run step s as) := by
  induction as generalizing s with
  | nil => exact hs
  | cons a as ih => exact ih h.2 (hstep s a hs h.1)

/-- What every step keeps, every run keeps. -/
theorem run_induction {I : σ → Prop} (hs : I s) (hstep : ∀ s a, I s → I (step s a)) :
    I (run step s as) := by
  induction as generalizing s with
  | nil => exact hs
  | cons a as ih => exact ih (hstep s a hs)

end Freehal.Lib
