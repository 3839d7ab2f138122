import Mathlib.Data.List.Basic

/-!
# Deleting by shifting

Moving the cells of an array up by one, and the first entry of an array that is looked for.
-/

namespace Freehal.Lib

variable {α : Type} {p : α → Bool} {l a b : List α} {x : α} {j : Nat}

/-- Each cell takes what is behind it, as far as there is something. -/
def shiftLeft : List α → List α
  | [] => []
  | [x] => [x]
  | _ :: y :: l => y :: shiftLeft (y :: l)

theorem shiftLeft_cons (x : α) (l : List α) : shiftLeft (x :: l) = l ++ [l.getLastD x] := by
  induction l generalizing x with
  | nil => rfl
  | cons y l ih => rw [shiftLeft, ih, List.getLastD_cons, List.cons_append]

/-- With the mark for the end moved up as well. -/
theorem dropLast_shiftLeft (x : α) (l : List α) : (shiftLeft (x :: l)).dropLast = l := by
  rw [shiftLeft_cons, List.dropLast_concat]

/-! ## The first entry -/

theorem exists_of_findIdx? (h : l.findIdx? p = some j) :
    ∃ a x b, l = a ++ x :: b ∧ a.length = j ∧ p x = true ∧ ∀ y ∈ a, p y = false := by
  obtain ⟨hj, hp, hbefore⟩ := List.findIdx?_eq_some_iff_getElem.mp h
  refine ⟨l.take j, l[j], l.drop (j + 1), ?_, by simp; omega, hp, ?_⟩
  · rw [List.getElem_cons_drop, List.take_append_drop]
  · intro y hy
    obtain ⟨i, hi, rfl⟩ := List.mem_take_iff_getElem.mp hy
    simpa using hbefore i (by omega)

theorem findIdx?_append_cons (ha : ∀ y ∈ a, p y = false) (hx : p x = true) :
    (a ++ x :: b).findIdx? p = some a.length := by
  induction a with
  | nil => simp [List.findIdx?_cons, hx]
  | cons y a ih =>
      rw [List.cons_append, List.findIdx?_cons, ha y (by simp), ih fun z hz => ha z (by simp [hz])]
      rfl

theorem countP_first (ha : ∀ y ∈ a, p y = false) (hx : p x = true) :
    (a ++ x :: b).countP p = b.countP p + 1 := by
  rw [List.countP_append, List.countP_cons, List.countP_eq_zero.mpr (by simpa using ha), hx]
  simp

theorem countP_append_of_first (ha : ∀ y ∈ a, p y = false) : (a ++ b).countP p = b.countP p := by
  rw [List.countP_append, List.countP_eq_zero.mpr (by simpa using ha), Nat.zero_add]

theorem filter_first (hx : p x = true) : (a ++ x :: b).filter (!p ·) = (a ++ b).filter (!p ·) := by
  simp [hx]

theorem exists_first (h : 0 < l.countP p) :
    ∃ a x b, l = a ++ x :: b ∧ p x = true ∧ ∀ y ∈ a, p y = false := by
  obtain ⟨y, hy, hp⟩ := List.countP_pos_iff.mp h
  cases hfind : l.findIdx? p with
  | none => exact absurd hp (by simp [List.findIdx?_eq_none_iff.mp hfind y hy])
  | some j =>
      obtain ⟨a, x, b, hl, -, hx, ha⟩ := exists_of_findIdx? hfind
      exact ⟨a, x, b, hl, hx, ha⟩

end Freehal.Lib
