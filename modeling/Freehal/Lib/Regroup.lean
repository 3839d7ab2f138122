import Mathlib.Data.List.Perm.Lattice

/-!
# Grouping by a key

The values of a list come in another order when its elements are taken key by key.
-/

namespace Freehal.Lib

variable {α β γ : Type} [DecidableEq β] [BEq β] [LawfulBEq β]

/-- Some keys first, one after the other, and then what has none of them. -/
theorem flatMap_regroup (key : α → β) (f : α → List γ) {keys : List β} (h : keys.Nodup)
    (l : List α) :
    (keys.flatMap (fun t => (l.filter fun a => key a = t).flatMap f) ++
      (l.filter fun a => !keys.contains (key a)).flatMap f).Perm (l.flatMap f) := by
  induction keys generalizing l with
  | nil => simp
  | cons t keys ih =>
      obtain ⟨ht, hkeys⟩ := List.nodup_cons.mp h
      have hrest := ih hkeys (l.filter fun a => !decide (key a = t))
      have hsame : keys.flatMap (fun t' => ((l.filter fun a => !decide (key a = t)).filter
          fun a => key a = t').flatMap f) =
            keys.flatMap (fun t' => (l.filter fun a => key a = t').flatMap f) := by
        refine List.flatMap_congr fun t' ht' => ?_
        rw [List.filter_filter]
        congr 1
        refine List.filter_congr fun a _ => ?_
        by_cases ha : key a = t'
        · have hne : ¬ t' = t := fun he => ht (he ▸ ht')
          simp [ha, hne]
        · simp [ha]
      have hothers : (l.filter fun a => !decide (key a = t)).filter
          (fun a => !keys.contains (key a)) = l.filter fun a => !(t :: keys).contains (key a) := by
        rw [List.filter_filter]
        refine List.filter_congr fun a _ => ?_
        by_cases ha : key a = t <;> simp [ha]
      rw [hsame, hothers] at hrest
      rw [List.flatMap_cons, List.append_assoc]
      refine (List.Perm.append_left _ hrest).trans ?_
      rw [← List.flatMap_append]
      exact (List.filter_append_perm _ l).flatMap_right f

end Freehal.Lib
