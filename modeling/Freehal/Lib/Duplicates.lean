import Mathlib.Data.List.MinMax

/-!
# Databases with sorted duplicates

A key may have several data, which are kept in their order. What is read for a key is the least.
-/

namespace Freehal.Lib

/-- The pairs of a key and one of its data. -/
abbrev Duplicates (κ δ : Type) := List (κ × δ)

namespace Duplicates

variable {κ δ : Type} [DecidableEq κ] [LinearOrder δ] {d : Duplicates κ δ} {k k' : κ} {x y : δ}

/-- Adds the pair where it is not there. -/
def put (d : Duplicates κ δ) (k : κ) (x : δ) : Duplicates κ δ :=
  if (k, x) ∈ d then d else d ++ [(k, x)]

/-- Removes all data of the key. -/
def delete (d : Duplicates κ δ) (k : κ) : Duplicates κ δ := d.filter (·.1 ≠ k)

def dataOf (d : Duplicates κ δ) (k : κ) : List δ := (d.filter (·.1 = k)).map (·.2)

/-- The least of the data of the key. -/
def get (d : Duplicates κ δ) (k : κ) : Option δ := (d.dataOf k).min?

theorem mem_put : (k', y) ∈ d.put k x ↔ (k', y) ∈ d ∨ k' = k ∧ y = x := by
  unfold put
  split
  · constructor
    · exact Or.inl
    · intro h
      rcases h with h | ⟨rfl, rfl⟩
      · exact h
      · assumption
  · simp

omit [LinearOrder δ] in
theorem mem_delete : (k', y) ∈ d.delete k ↔ (k', y) ∈ d ∧ k' ≠ k := by
  simp [delete]

theorem get_eq_some : d.get k = some x ↔ (k, x) ∈ d ∧ ∀ y, (k, y) ∈ d → x ≤ y := by
  simp [get, List.min?_eq_some_iff, dataOf]

theorem get_eq_none : d.get k = none ↔ ∀ y, (k, y) ∉ d := by
  rw [get, List.min?_eq_none_iff, List.eq_nil_iff_forall_not_mem]
  simp [dataOf]

end Duplicates

end Freehal.Lib
