import Mathlib.Data.List.Basic

/-!
# Blocks of memory

What `calloc` and `realloc` give, as cells. A cell that nothing was written to has no value, and
reading it, like reading outside the block, has no result.
-/

namespace Freehal.Lib

structure Block (α : Type) where
  cells : List (Option α)
deriving DecidableEq

namespace Block

variable {α : Type} {b c : Block α} {a d : α} {i j : Int} {n : Nat}

def calloc (n : Nat) (zero : α) : Block α := ⟨List.replicate n (some zero)⟩

def realloc (b : Block α) (n : Nat) : Block α :=
  ⟨b.cells.take n ++ List.replicate (n - b.cells.length) none⟩

def read (b : Block α) (i : Int) : Option α :=
  if i < 0 then none else (b.cells[i.toNat]?).join

def write (b : Block α) (i : Int) (a : α) : Option (Block α) :=
  if 0 ≤ i ∧ i.toNat < b.cells.length then some ⟨b.cells.set i.toNat (some a)⟩ else none

def size (b : Block α) : Nat := b.cells.length

/-! ## Allocation -/

@[simp] theorem size_calloc : (calloc n a).size = n := by simp [calloc, size]

theorem size_realloc (h : b.size ≤ n) : (b.realloc n).size = n := by
  simp only [size] at h
  simp only [realloc, size, List.length_append, List.length_take, List.length_replicate]
  omega

theorem read_calloc (h0 : 0 ≤ i) (h : i < n) : (calloc n a).read i = some a := by
  have hi : i.toNat < n := by omega
  simp [read, calloc, show ¬ i < 0 by omega, hi]

theorem read_neg (h : i < 0) : b.read i = none := by simp [read, h]

theorem read_of_size_le (h : b.size ≤ i) : b.read i = none := by
  by_cases hi : i < 0
  · exact read_neg hi
  · have hle : b.cells.length ≤ i.toNat := by simp only [size] at h; omega
    simp [read, hi, List.getElem?_eq_none hle]

/-- A larger block keeps its values, and the new cells have none. -/
theorem read_realloc (h : b.size ≤ n) : (b.realloc n).read i = b.read i := by
  simp only [size] at h
  by_cases hi : i < 0
  · rw [read_neg hi, read_neg hi]
  · by_cases hlt : i.toNat < b.cells.length
    · simp [read, hi, realloc, List.take_of_length_le h, List.getElem?_append_left hlt]
    · have hnone : b.read i = none := read_of_size_le (by simp only [size]; omega)
      rw [hnone]
      simp only [read, hi, if_false, realloc, List.take_of_length_le h]
      rw [List.getElem?_append_right (by omega), List.getElem?_replicate]
      split <;> rfl

theorem read_of_cell {n : Nat} (h : b.cells[n]? = some (some a)) : b.read n = some a := by
  simp only [read, Int.toNat_natCast]
  rw [if_neg (by omega), h]
  rfl

theorem cell_of_read {n : Nat} (h : b.read n = some a) :
    ∃ hlt : n < b.cells.length, b.cells[n] = some a := by
  simp only [read, Int.toNat_natCast] at h
  rw [if_neg (by omega), Option.join_eq_some_iff] at h
  exact List.getElem?_eq_some_iff.mp h

theorem cells_eq_map_read (b : Block α) :
    b.cells = (List.range b.size).map fun k : Nat => b.read k := by
  apply List.ext_getElem
  · simp [size]
  · intro k hk hk'
    have hneg : ¬ (k : Int) < 0 := by omega
    simp [read, hk, hneg]

/-! ## Writing -/

theorem write_eq_some : b.write i a = some c ↔
    (0 ≤ i ∧ i < b.size) ∧ c = ⟨b.cells.set i.toNat (some a)⟩ := by
  unfold write
  split
  · rename_i h
    have hi : 0 ≤ i ∧ i < b.size := by simp only [size]; omega
    simp [hi, eq_comm]
  · rename_i h
    have hi : ¬ (0 ≤ i ∧ i < b.size) := by simp only [size]; omega
    simp [hi]

theorem exists_write (h0 : 0 ≤ i) (h : i < b.size) : ∃ c, b.write i a = some c :=
  ⟨_, write_eq_some.mpr ⟨⟨h0, h⟩, rfl⟩⟩

theorem size_write (h : b.write i a = some c) : c.size = b.size := by
  obtain ⟨-, rfl⟩ := write_eq_some.mp h
  simp [size]

theorem read_write_self (h : b.write i a = some c) : c.read i = some a := by
  obtain ⟨⟨h0, hi⟩, rfl⟩ := write_eq_some.mp h
  have hlt : i.toNat < b.cells.length := by simp only [size] at hi; omega
  simp [read, show ¬ i < 0 by omega, hlt]

theorem read_write_of_ne (h : b.write i a = some c) (hij : j ≠ i) : c.read j = b.read j := by
  obtain ⟨⟨h0, hi⟩, rfl⟩ := write_eq_some.mp h
  by_cases hj : j < 0
  · rw [read_neg hj, read_neg hj]
  · have hne : i.toNat ≠ j.toNat := by omega
    simp [read, hj, List.getElem?_set_ne hne]

end Block

end Freehal.Lib
