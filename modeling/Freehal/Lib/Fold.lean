import Mathlib.Data.List.Forall2

/-!
# Folds that may fail

What every step of a fold preserves, the whole fold preserves.
-/

namespace Freehal.Lib

variable {α σ : Type}

theorem foldl_induction {P : σ → Prop} {f : σ → α → σ} {l : List α} {s : σ} (hs : P s)
    (step : ∀ s a, a ∈ l → P s → P (f s a)) : P (l.foldl f s) := by
  induction l generalizing s with
  | nil => exact hs
  | cons a l ih =>
      exact ih (step s a (by simp) hs) fun s b hb => step s b (by simp [hb])

theorem foldlM_induction {P : σ → Prop} {f : σ → α → Option σ} {l : List α} {s s' : σ}
    (h : l.foldlM f s = some s') (hs : P s)
    (step : ∀ s a s', a ∈ l → P s → f s a = some s' → P s') : P s' := by
  induction l generalizing s with
  | nil => cases h; exact hs
  | cons a l ih =>
      simp only [List.foldlM_cons, Option.bind_eq_bind, Option.bind_eq_some_iff] at h
      obtain ⟨s₁, h₁, h⟩ := h
      exact ih h (step s a s₁ (by simp) hs h₁) fun s b s' hb => step s b s' (by simp [hb])

/-- A fold whose steps all succeed. -/
theorem foldlM_mono {f g : σ → α → Option σ} (h : ∀ s a s', f s a = some s' → g s a = some s')
    {l : List α} {s s' : σ} (hl : l.foldlM f s = some s') : l.foldlM g s = some s' := by
  induction l generalizing s with
  | nil => exact hl
  | cons a l ih =>
      rw [List.foldlM_cons] at hl ⊢
      obtain ⟨t, hstep, hrest⟩ := Option.bind_eq_some_iff.mp hl
      rw [h s a t hstep]
      exact ih hrest

theorem foldlM_flatMap {β : Type} {f : σ → β → Option σ} (g : α → List β) (l : List α) (s : σ) :
    (l.flatMap g).foldlM f s = l.foldlM (fun s a => (g a).foldlM f s) s := by
  induction l generalizing s with
  | nil => rfl
  | cons a l ih =>
      rw [List.flatMap_cons, List.foldlM_append, List.foldlM_cons]
      exact congrArg _ (funext fun t => ih t)

theorem foldlM_total {P : List α → σ → Prop} {f : σ → α → Option σ} {l : List α} {s : σ}
    (hs : P [] s)
    (step : ∀ done a s, a ∈ l → P done s → ∃ s', f s a = some s' ∧ P (done ++ [a]) s') :
    ∃ s', l.foldlM f s = some s' ∧ P l s' := by
  have hrun : ∀ rest done s, rest ⊆ l → P done s →
      ∃ s', rest.foldlM f s = some s' ∧ P (done ++ rest) s' := by
    intro rest
    induction rest with
    | nil => exact fun done s _ hP => ⟨s, rfl, by rwa [List.append_nil]⟩
    | cons a rest ih =>
        intro done s hsub hP
        obtain ⟨s', hstep, hP'⟩ := step done a s (hsub List.mem_cons_self) hP
        obtain ⟨s'', hfold, hP''⟩ := ih (done ++ [a]) s' (List.subset_of_cons_subset hsub) hP'
        refine ⟨s'', ?_, by rwa [List.append_assoc] at hP''⟩
        rw [List.foldlM_cons, hstep]
        exact hfold
  exact hrun l [] s (List.Subset.refl l) hs

theorem forall₂_mem_right {β : Type} {R : α → β → Prop} {l : List α} {bs : List β}
    (h : List.Forall₂ R l bs) {b : β} (hb : b ∈ bs) : ∃ a ∈ l, R a b := by
  induction h with
  | nil => cases hb
  | @cons a b' l bs hR _ ih =>
      rcases List.mem_cons.mp hb with rfl | hb
      · exact ⟨a, List.mem_cons_self, hR⟩
      · obtain ⟨a', ha, hR⟩ := ih hb
        exact ⟨a', List.mem_cons_of_mem _ ha, hR⟩

theorem mapM_eq_some_iff {β : Type} {f : α → Option β} {l : List α} {bs : List β} :
    l.mapM f = some bs ↔ List.Forall₂ (fun a b => f a = some b) l bs := by
  induction l generalizing bs with
  | nil => simp [eq_comm]
  | cons a l ih =>
      simp only [List.mapM_cons, Option.bind_eq_bind, Option.bind_eq_some_iff, Option.pure_def,
        Option.some.injEq, List.forall₂_cons_left_iff, ih]
      constructor
      · rintro ⟨b, hb, bs', hbs, rfl⟩
        exact ⟨b, bs', hb, hbs, rfl⟩
      · rintro ⟨b, bs', hb, hbs, rfl⟩
        exact ⟨b, hb, bs', hbs, rfl⟩

theorem mapM_eq_none_iff {β : Type} {f : α → Option β} {l : List α} :
    l.mapM f = none ↔ ∃ a ∈ l, f a = none := by
  induction l with
  | nil => simp
  | cons a l ih =>
      rw [List.mapM_cons]
      cases ha : f a with
      | none => simp [ha]
      | some b =>
          cases hl : l.mapM f with
          | none => simpa [ha, hl] using ih
          | some bs => simpa [ha, hl] using ih

theorem mem_modify {f : α → α} {l : List α} {i : Nat} {x : α} (h : x ∈ l.modify i f) :
    x ∈ l ∨ ∃ y ∈ l, x = f y := by
  obtain ⟨j, hj⟩ := List.mem_iff_getElem?.mp h
  rw [List.getElem?_modify] at hj
  cases hl : l[j]? with
  | none => simp [hl] at hj
  | some y =>
      have hy : y ∈ l := List.mem_of_getElem? hl
      simp only [hl, Option.map_eq_map, Option.map_some, Option.some.injEq] at hj
      split at hj
      · exact Or.inr ⟨y, hy, hj.symm⟩
      · exact Or.inl (hj ▸ hy)

end Freehal.Lib
