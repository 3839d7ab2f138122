import Mathlib.Order.Lattice

/-!
# The best entry

A loop over entries with scores, which keeps the key of the best one so far.
-/

namespace Freehal.Lib

variable {κ ρ σ : Type} {score : ρ → Option σ} {better : σ → σ → Bool}

/-- The loop over the entries. It fails where an entry has no score. -/
def bestFrom (score : ρ → Option σ) (better : σ → σ → Bool) :
    List (κ × ρ) → Option κ → σ → Option (Option κ)
  | [], best, _ => some best
  | e :: entries, best, bestScore => do
      let s ← score e.2
      if better s bestScore then bestFrom score better entries (some e.1) s
      else bestFrom score better entries best bestScore

theorem bestFrom_cons {e : κ × ρ} {s : σ} (h : score e.2 = some s) (entries : List (κ × ρ))
    (best : Option κ) (bestScore : σ) :
    bestFrom score better (e :: entries) best bestScore =
      if better s bestScore then bestFrom score better entries (some e.1) s
      else bestFrom score better entries best bestScore := by
  rw [bestFrom, h]
  rfl

theorem bestFrom_mono {score' : ρ → Option σ} (h : ∀ r s, score r = some s → score' r = some s)
    {entries : List (κ × ρ)} {best found : Option κ} {bestScore : σ}
    (hfound : bestFrom score better entries best bestScore = some found) :
    bestFrom score' better entries best bestScore = some found := by
  induction entries generalizing best bestScore with
  | nil => exact hfound
  | cons e entries ih =>
      cases hscore : score e.2 with
      | none => simp [bestFrom, hscore] at hfound
      | some s =>
          rw [bestFrom_cons hscore] at hfound
          rw [bestFrom_cons (h e.2 s hscore)]
          split at hfound
          · rw [if_pos ‹_›]
            exact ih hfound
          · rw [if_neg ‹_›]
            exact ih hfound

theorem bestFrom_isSome (entries : List (κ × ρ)) (best : Option κ) (bestScore : σ) :
    (bestFrom score better entries best bestScore).isSome ↔
      ∀ e ∈ entries, (score e.2).isSome := by
  induction entries generalizing best bestScore with
  | nil => simp [bestFrom]
  | cons e entries ih =>
      rw [List.forall_mem_cons]
      cases hscore : score e.2 with
      | none => simp [bestFrom, hscore]
      | some s =>
          rw [bestFrom_cons hscore]
          split <;> simp [ih]

/-- What is found is an entry, if the loop does not end with what it began with. -/
theorem bestFrom_mem {entries : List (κ × ρ)} {best found : Option κ} {bestScore : σ}
    (h : bestFrom score better entries best bestScore = some found) :
    found = best ∨ ∃ e ∈ entries, found = some e.1 := by
  induction entries generalizing best bestScore with
  | nil =>
      cases h
      exact Or.inl rfl
  | cons e entries ih =>
      cases hscore : score e.2 with
      | none => simp [bestFrom, hscore] at h
      | some s =>
          rw [bestFrom_cons hscore] at h
          split at h
          · rcases ih h with rfl | ⟨d, hd, rfl⟩
            · exact Or.inr ⟨e, List.mem_cons_self, rfl⟩
            · exact Or.inr ⟨d, List.mem_cons_of_mem e hd, rfl⟩
          · rcases ih h with rfl | ⟨d, hd, rfl⟩
            · exact Or.inl rfl
            · exact Or.inr ⟨d, List.mem_cons_of_mem e hd, rfl⟩

/-- If every score is better than the one the loop begins with, something is found. -/
theorem bestFrom_ne_none {entries : List (κ × ρ)} (hne : entries ≠ []) {bestScore : σ}
    (hbetter : ∀ s, better s bestScore = true) :
    bestFrom score better entries none bestScore ≠ some none := by
  obtain ⟨e, entries, rfl⟩ := List.exists_cons_of_ne_nil hne
  intro h
  cases hscore : score e.2 with
  | none => simp [bestFrom, hscore] at h
  | some s =>
      rw [bestFrom_cons hscore, if_pos (hbetter s)] at h
      rcases bestFrom_mem h with hfound | ⟨_, -, hfound⟩ <;> cases hfound

/-! ## The order of the scores -/

/-- The best score so far and the scores of the entries are not higher than the score of what is
found. -/
theorem bestFrom_max [LinearOrder σ] {entries : List (κ × ρ)}
    (hbetter : ∀ e ∈ entries, ∀ s, score e.2 = some s → ∀ t, better s t = true ↔ t < s)
    {best found : Option κ} {bestScore : σ}
    (h : bestFrom score better entries best bestScore = some found) :
    ∃ s, bestScore ≤ s ∧ (∀ e ∈ entries, ∀ t, score e.2 = some t → t ≤ s) ∧
      (found = best ∧ s = bestScore ∨ ∃ e ∈ entries, found = some e.1 ∧ score e.2 = some s) := by
  induction entries generalizing best bestScore with
  | nil =>
      cases h
      exact ⟨bestScore, le_refl _, nofun, Or.inl ⟨rfl, rfl⟩⟩
  | cons e entries ih =>
      obtain ⟨hfirst, hrest⟩ := List.forall_mem_cons.mp hbetter
      cases hscore : score e.2 with
      | none => simp [bestFrom, hscore] at h
      | some s =>
          have hmax : ∀ u, s ≤ u → (∀ d ∈ entries, ∀ t, score d.2 = some t → t ≤ u) →
              ∀ d ∈ e :: entries, ∀ t, score d.2 = some t → t ≤ u := by
            intro u hle hall d hd t ht
            rcases List.mem_cons.mp hd with rfl | hd
            · rw [hscore] at ht
              cases ht
              exact hle
            · exact hall d hd t ht
          rw [bestFrom_cons hscore] at h
          by_cases hlt : better s bestScore = true
          · rw [if_pos hlt] at h
            obtain ⟨u, hle, hall, hfound⟩ := ih hrest h
            refine ⟨u, ((hfirst s hscore _).mp hlt).le.trans hle, hmax u hle hall, Or.inr ?_⟩
            rcases hfound with ⟨rfl, rfl⟩ | ⟨d, hd, hfound⟩
            · exact ⟨e, List.mem_cons_self, rfl, hscore⟩
            · exact ⟨d, List.mem_cons_of_mem e hd, hfound⟩
          · rw [if_neg hlt] at h
            obtain ⟨u, hle, hall, hfound⟩ := ih hrest h
            have hs : s ≤ u := (not_lt.mp (mt (hfirst s hscore _).mpr hlt)).trans hle
            refine ⟨u, hle, hmax u hs hall, hfound.imp_right ?_⟩
            rintro ⟨d, hd, hfound⟩
            exact ⟨d, List.mem_cons_of_mem e hd, hfound⟩

end Freehal.Lib
