import Mathlib.Data.List.Nodup

/-!
# Collecting without duplicates

A loop that appends what is not there yet, as long as there is room.
-/

namespace Freehal.Lib

variable {α : Type} [DecidableEq α] {limit : Int} {found l : List α} {a : α}

def collect (limit : Int) (found : List α) : List α → List α
  | [] => found
  | a :: l =>
      if found.length < limit then collect limit (if a ∈ found then found else found ++ [a]) l
      else found

theorem collect_map {β : Type} [DecidableEq β] {f : α → β} (hf : f.Injective) (limit : Int)
    (found l : List α) : collect limit (found.map f) (l.map f) = (collect limit found l).map f := by
  induction l generalizing found with
  | nil => rfl
  | cons a l ih =>
      have hmem : f a ∈ found.map f ↔ a ∈ found := List.mem_map_of_injective hf
      simp only [List.map_cons, collect, List.length_map, hmem]
      split
      · rw [← ih]
        split
        · rfl
        · rw [List.map_append, List.map_singleton]
      · rfl

theorem collect_of_full (h : ¬ (found.length : Int) < limit) (l : List α) :
    collect limit found l = found := by
  cases l with
  | nil => rfl
  | cons a l => rw [collect, if_neg h]

theorem prefix_collect (limit : Int) (found l : List α) : found <+: collect limit found l := by
  induction l generalizing found with
  | nil => exact List.prefix_refl found
  | cons a l ih =>
      rw [collect]
      split
      · refine List.IsPrefix.trans ?_ (ih _)
        split
        · exact List.prefix_refl found
        · exact List.prefix_append found [a]
      · exact List.prefix_refl found

theorem nodup_collect (h : found.Nodup) : (collect limit found l).Nodup := by
  induction l generalizing found with
  | nil => exact h
  | cons a l ih =>
      rw [collect]
      split
      · apply ih
        split
        · exact h
        · case isFalse hnot =>
            have hdisjoint : ∀ b ∈ found, ∀ c ∈ [a], b ≠ c := by
              intro b hb c hc heq
              rw [List.mem_singleton.mp hc] at heq
              exact hnot (heq ▸ hb)
            exact List.nodup_append.mpr ⟨h, List.nodup_singleton a, hdisjoint⟩
      · exact h

theorem mem_collect (h : a ∈ collect limit found l) : a ∈ found ∨ a ∈ l := by
  induction l generalizing found with
  | nil => exact Or.inl h
  | cons b l ih =>
      rw [collect] at h
      split at h
      · rcases ih h with hfound | hl
        · split at hfound
          · exact Or.inl hfound
          · rcases List.mem_append.mp hfound with hfound | hb
            · exact Or.inl hfound
            · exact Or.inr (by simp [List.mem_singleton.mp hb])
        · exact Or.inr (List.mem_cons_of_mem b hl)
      · exact Or.inl h

theorem length_collect_le (h : (found.length : Int) ≤ max limit 0) :
    ((collect limit found l).length : Int) ≤ max limit 0 := by
  induction l generalizing found with
  | nil => exact h
  | cons a l ih =>
      rw [collect]
      split
      · apply ih
        split
        · exact h
        · rw [List.length_append, List.length_singleton]
          omega
      · exact h

/-- With room left at the end, nothing was left out. -/
theorem mem_collect_of_room (hroom : ((collect limit found l).length : Int) < limit) (h : a ∈ l) :
    a ∈ collect limit found l := by
  induction l generalizing found with
  | nil => cases h
  | cons b l ih =>
      have hlt : (found.length : Int) < limit := by
        have := (prefix_collect limit found (b :: l)).length_le
        omega
      rw [collect, if_pos hlt] at hroom ⊢
      rcases List.mem_cons.mp h with rfl | h
      · apply (prefix_collect limit _ l).subset
        split
        · assumption
        · simp
      · exact ih hroom h

end Freehal.Lib
