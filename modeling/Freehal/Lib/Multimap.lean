import Mathlib.Data.List.Perm.Basic
import Mathlib.Order.Lattice

/-!
# Ordered multimaps

A multimap is the list of its entries in the order of their keys. Entries with the same key stay in
the order in which they were inserted.
-/

namespace Freehal.Lib

abbrev Multimap (κ β : Type) := List (κ × β)

namespace Multimap

variable {κ β : Type} [LinearOrder κ]

/-- An entry is put behind the entries whose keys are not greater. -/
def insert : Multimap κ β → κ → β → Multimap κ β
  | [], k, v => [(k, v)]
  | e :: m, k, v => if k < e.1 then (k, v) :: e :: m else e :: insert m k v

theorem insert_perm (m : Multimap κ β) (k : κ) (v : β) : (m.insert k v).Perm ((k, v) :: m) := by
  induction m with
  | nil => exact List.Perm.refl _
  | cons e m ih =>
      rw [insert]
      split
      · exact List.Perm.refl _
      · exact (ih.cons e).trans (List.Perm.swap _ _ _)

def Sorted (m : Multimap κ β) : Prop := m.Pairwise fun a b => a.1 ≤ b.1

theorem Sorted.insert {m : Multimap κ β} (h : m.Sorted) (k : κ) (v : β) :
    (m.insert k v).Sorted := by
  induction m with
  | nil => exact List.pairwise_singleton _ _
  | cons e m ih =>
      obtain ⟨he, hm⟩ := List.pairwise_cons.mp h
      rw [Multimap.insert]
      split
      · rename_i hlt
        refine List.pairwise_cons.mpr ⟨fun d hd => ?_, h⟩
        rcases List.mem_cons.mp hd with rfl | hd
        · exact le_of_lt hlt
        · exact le_trans (le_of_lt hlt) (he d hd)
      · rename_i hlt
        refine List.pairwise_cons.mpr ⟨fun d hd => ?_, ih hm⟩
        rcases List.mem_cons.mp ((insert_perm m k v).mem_iff.mp hd) with rfl | hd
        · exact not_lt.mp hlt
        · exact he d hd

/-- The last entry has the greatest key. -/
theorem Sorted.le_last {m : Multimap κ β} (h : m.Sorted) {i : Nat} (hi : i + 1 = m.length)
    {d : κ × β} (hd : d ∈ m) : d.1 ≤ m[i].1 := by
  obtain ⟨j, hj, rfl⟩ := List.getElem_of_mem hd
  by_cases hij : j = i
  · subst hij
    exact le_refl _
  · exact List.pairwise_iff_getElem.mp h j i hj (by omega) (by omega)

end Multimap

end Freehal.Lib
