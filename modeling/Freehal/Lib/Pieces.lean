import Freehal.Lib.Text

/-!
# The pieces of a text

The non-empty stretches of a text between the separators.
-/

namespace Freehal.Lib

variable {sep : Char} {s t p : Str}

/-- What stands between the separators, without the empty texts. -/
def pieces (sep : Char) (s : Str) : List Str := (s.splitOn sep).filter (· ≠ [])

@[simp] theorem pieces_nil (sep : Char) : pieces sep [] = [] := rfl

theorem pieces_append_cons (s t : Str) : pieces sep (s ++ sep :: t) = pieces sep s ++ pieces sep t := by
  rw [pieces, List.splitOn_append_cons_self, List.filter_append]
  rfl

theorem pieces_cons (t : Str) : pieces sep (sep :: t) = pieces sep t := by
  simpa using @pieces_append_cons sep [] t

theorem pieces_concat (s : Str) : pieces sep (s ++ [sep]) = pieces sep s := by
  simpa using @pieces_append_cons sep s []

theorem pieces_of_not_mem (h : sep ∉ s) (hne : s ≠ []) : pieces sep s = [s] := by
  rw [pieces, List.splitOn_eq_singleton h]
  simp [hne]

theorem not_mem_of_mem_pieces (h : p ∈ pieces sep s) : sep ∉ p :=
  not_mem_of_mem_splitOn (List.mem_of_mem_filter h)

/-- Without empty stretches, the pieces are all that the separators leave. -/
theorem pieces_eq_splitOn (h : ∀ p ∈ s.splitOn sep, p ≠ []) : pieces sep s = s.splitOn sep :=
  List.filter_eq_self.mpr fun p hp => decide_eq_true (h p hp)

theorem splitOnP_congr {p q : Char → Bool} {s : Str} (h : ∀ c ∈ s, p c = q c) :
    s.splitOnP p = s.splitOnP q := by
  induction s with
  | nil => rfl
  | cons c s ih =>
      rw [List.splitOnP_cons_eq_if_modifyHead, List.splitOnP_cons_eq_if_modifyHead, h c (by simp),
        ih fun d hd => h d (by simp [hd])]

/-- Where no other separator is used, the pieces are what stands between any of them. -/
theorem pieces_eq_splitOnP {p : Char → Bool} {s : Str} (h : ∀ c ∈ s, p c = decide (c = sep)) :
    (s.splitOnP p).filter (· ≠ []) = pieces sep s := by
  rw [pieces, List.splitOn_eq_splitOnP, splitOnP_congr h]
  rfl

theorem mem_of_mem_pieces {c : Char} (hp : p ∈ pieces sep s) (hc : c ∈ p) : c ∈ s :=
  mem_of_mem_splitOn (List.mem_of_mem_filter hp) hc

end Freehal.Lib
