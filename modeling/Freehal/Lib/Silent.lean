import Mathlib.Data.List.Forall2

/-!
# Actions that another system does not see

Two systems whose steps may fail. The second one takes part only in some actions of the first one.
When each step is matched, each run is.
-/

namespace Freehal.Lib

variable {σ τ α β ω ρ : Type}

/-- The state after the actions, with the reply to each. -/
def replies (step : σ → α → Option (σ × ω)) : σ → List α → Option (σ × List ω)
  | s, [] => some (s, [])
  | s, a :: as => do
      let first ← step s a
      let rest ← replies step first.1 as
      return (rest.1, first.2 :: rest.2)

variable {step : σ → α → Option (σ × ω)} {step' : τ → β → Option (τ × ρ)} {s : σ} {t : τ} {a : α}
  {as : List α}

theorem replies_cons_of_none (h : step s a = none) : replies step s (a :: as) = none := by
  rw [replies, h]
  rfl

theorem replies_cons_of_some {s' : σ} {o : ω} (h : step s a = some (s', o)) :
    replies step s (a :: as) = (replies step s' as).map fun rest => (rest.1, o :: rest.2) := by
  rw [replies, h, Option.bind_eq_bind, Option.bind_some, Option.map_eq_bind]
  rfl

theorem rel_map {γ δ ε ζ : Type} {P : γ → δ → Prop} {Q : ε → ζ → Prop} {x : Option γ}
    {y : Option δ} {f : γ → ε} {g : δ → ζ} (h : Option.Rel P x y)
    (hfg : ∀ c d, P c d → Q (f c) (g d)) : Option.Rel Q (x.map f) (y.map g) := by
  cases h with
  | none => exact Option.Rel.none
  | some hcd => exact Option.Rel.some (hfg _ _ hcd)

theorem rel_some_some {γ δ : Type} {P : γ → δ → Prop} {c : γ} {d : δ} :
    Option.Rel P (some c) (some d) ↔ P c d := by
  constructor
  · intro h
    cases h with
    | some hcd => exact hcd
  · exact Option.Rel.some

theorem isSome_eq_of_rel {γ δ : Type} {P : γ → δ → Prop} {x : Option γ} {y : Option δ}
    (h : Option.Rel P x y) : x.isSome = y.isSome := by
  cases h with
  | none => rfl
  | some _ => rfl

/-- Each step of the first system is matched by one of the second, or by none if it is silent. -/
structure Matched (step : σ → α → Option (σ × ω)) (step' : τ → β → Option (τ × ρ))
    (seen : α → Option β) (reply : ω → Option ρ) (R : σ → τ → Prop) : Prop where
  silent : ∀ s t a, R s t → seen a = none →
    ∃ s' o, step s a = some (s', o) ∧ reply o = none ∧ R s' t
  seen : ∀ s t a b, R s t → seen a = some b →
    Option.Rel (fun r r' => R r.1 r'.1 ∧ reply r.2 = some r'.2) (step s a) (step' t b)

variable {seen : α → Option β} {reply : ω → Option ρ} {R : σ → τ → Prop}

/-- Either both runs fail, or both end, in related states and with the same replies to what both
systems see. -/
theorem Matched.run (h : Matched step step' seen reply R) (hs : R s t) :
    Option.Rel (fun r r' => R r.1 r'.1 ∧ r.2.filterMap reply = r'.2) (replies step s as)
      (replies step' t (as.filterMap seen)) := by
  induction as generalizing s t with
  | nil => exact Option.Rel.some ⟨hs, rfl⟩
  | cons a as ih =>
      cases hseen : seen a with
      | none =>
          obtain ⟨s', o, hstep, hreply, hs'⟩ := h.silent s t a hs hseen
          rw [replies_cons_of_some hstep, List.filterMap_cons_none hseen, ← Option.map_id'
            (x := replies step' t (as.filterMap seen))]
          refine rel_map (ih hs') fun rest rest' hrest => ⟨hrest.1, ?_⟩
          rw [List.filterMap_cons_none hreply]
          exact hrest.2
      | some b =>
          rw [List.filterMap_cons_some hseen]
          have hboth := h.seen s t a b hs hseen
          cases hstep : step s a with
          | none =>
              cases hstep' : step' t b with
              | none =>
                  rw [replies_cons_of_none hstep, replies_cons_of_none hstep']
                  exact Option.Rel.none
              | some r =>
                  rw [hstep, hstep'] at hboth
                  cases hboth
          | some r =>
              cases hstep' : step' t b with
              | none =>
                  rw [hstep, hstep'] at hboth
                  cases hboth
              | some r' =>
                  rw [hstep, hstep'] at hboth
                  obtain ⟨hs', hreply⟩ := rel_some_some.mp hboth
                  rw [replies_cons_of_some hstep, replies_cons_of_some hstep']
                  refine rel_map (ih hs') fun rest rest' hrest => ⟨hrest.1, ?_⟩
                  rw [List.filterMap_cons_some hreply, hrest.2]

end Freehal.Lib
