import Mathlib.Data.List.Basic

/-!
# Loops

A loop with a state, a step that ends it, goes on or fails, and fuel for its steps. An invariant
says how it ends, and a measure that it does.
-/

namespace Freehal.Lib

/-- Why there is no result: the fuel is used up, or an access is outside of a block. -/
inductive Fault where
  | fuel
  | bounds
deriving DecidableEq

/-- An access. -/
def inside {α : Type} : Option α → Except Fault α
  | some a => .ok a
  | none => .error .bounds

@[simp] theorem inside_some {α : Type} (a : α) : inside (some a) = .ok a := rfl

@[simp] theorem inside_none {α : Type} : inside (none : Option α) = .error .bounds := rfl

@[simp] theorem ok_bind {α β : Type} (a : α) (f : α → Except Fault β) :
    (Except.ok a >>= f) = f a := rfl

@[simp] theorem error_bind {α β : Type} (fault : Fault) (f : α → Except Fault β) :
    (Except.error fault >>= f) = .error fault := rfl

variable {σ ρ : Type}

def loop (step : σ → Except Fault (σ ⊕ ρ)) : Nat → σ → Except Fault ρ
  | 0, _ => .error .fuel
  | fuel + 1, s =>
      match step s with
      | .error fault => .error fault
      | .ok (.inr r) => .ok r
      | .ok (.inl s) => loop step fuel s

variable {step : σ → Except Fault (σ ⊕ ρ)} {inv : σ → Prop} {measure : σ → Nat} {post : ρ → Prop}
  {s : σ} {fuel : Nat}

/-- What a step from a state of the invariant does. -/
inductive Steps (inv : σ → Prop) (measure : σ → Nat) (post : ρ → Prop) (s : σ) :
    Except Fault (σ ⊕ ρ) → Prop
  | done {r : ρ} (h : post r) : Steps inv measure post s (.ok (.inr r))
  | next {s' : σ} (h : inv s') (hlt : measure s' < measure s) :
      Steps inv measure post s (.ok (.inl s'))

/-- A loop whose steps stay inside and come closer to the end has a result. -/
theorem loop_total (h : ∀ s, inv s → Steps inv measure post s (step s)) (hs : inv s)
    (hfuel : measure s < fuel) : ∃ r, loop step fuel s = .ok r ∧ post r := by
  induction fuel generalizing s with
  | zero => omega
  | succ fuel ih =>
      have hsteps := h s hs
      rw [loop]
      generalize step s = result at hsteps
      cases hsteps with
      | done hr => exact ⟨_, rfl, hr⟩
      | next hs' hlt => exact ih hs' (by omega)

/-- A loop ends even where its steps may leave the block. -/
theorem loop_stops
    (h : ∀ s, inv s → step s = .error .bounds ∨ Steps inv measure (fun _ => True) s (step s))
    (hs : inv s) (hfuel : measure s < fuel) : loop step fuel s ≠ .error .fuel := by
  induction fuel generalizing s with
  | zero => omega
  | succ fuel ih =>
      rw [loop]
      rcases h s hs with hbounds | hsteps
      · rw [hbounds]
        simp
      · generalize step s = result at hsteps
        cases hsteps with
        | done => simp
        | next hs' hlt => exact ih hs' (by omega)

/-- A loop that only goes on or leaves the block has no result, whatever the fuel. -/
theorem loop_never
    (h : ∀ s, inv s → step s = .error .bounds ∨ ∃ s', step s = .ok (.inl s') ∧ inv s')
    (hs : inv s) (fuel : Nat) (r : ρ) : loop step fuel s ≠ .ok r := by
  induction fuel generalizing s with
  | zero => simp [loop]
  | succ fuel ih =>
      rw [loop]
      rcases h s hs with hbounds | ⟨s', hnext, hs'⟩
      · rw [hbounds]
        simp
      · rw [hnext]
        exact ih hs'

end Freehal.Lib
