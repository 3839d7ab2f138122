import Mathlib.Data.List.Infix

/-!
# How often a part stands in a list

Each place is counted, also where two places share elements.
-/

namespace Freehal.Lib

variable {α : Type} [DecidableEq α] {part a b : List α}

/-- The number of the places where the part begins. -/
def occurrences (part : List α) : List α → Nat
  | [] => 0
  | c :: text => (if part <+: c :: text then 1 else 0) + occurrences part text

theorem occurrences_le_append (a b : List α) :
    occurrences part a + occurrences part b ≤ occurrences part (a ++ b) := by
  induction a with
  | nil => simp [occurrences]
  | cons c a ih =>
      simp only [List.cons_append, occurrences]
      have hplace : (if part <+: c :: a then 1 else 0) ≤
          (if part <+: c :: (a ++ b) then 1 else 0 : Nat) := by
        by_cases h : part <+: c :: a
        · have happ : part <+: c :: (a ++ b) := h.trans (List.prefix_append (c :: a) b)
          rw [if_pos h, if_pos happ]
        · rw [if_neg h]
          exact Nat.zero_le _
      omega

theorem occurrences_le_front (h : a <+: b) :
    occurrences part a ≤ occurrences part b := by
  obtain ⟨c, rfl⟩ := h
  exact (Nat.le_add_right _ _).trans (occurrences_le_append a c)

theorem occurrences_pos_iff (hpart : part ≠ []) : 0 < occurrences part a ↔ part <:+: a := by
  induction a with
  | nil => simp [occurrences, hpart]
  | cons c a ih =>
      rw [occurrences, List.infix_cons_iff, ← ih]
      split
      · rename_i h
        simp only [h, true_or, iff_true]
        omega
      · rename_i h
        simp only [h, false_or, Nat.zero_add]

theorem occurrences_of_length_lt (h : a.length < part.length) : occurrences part a = 0 := by
  induction a with
  | nil => rfl
  | cons c a ih =>
      have hnot : ¬part <+: c :: a := fun hfront => absurd hfront.length_le (by omega)
      rw [List.length_cons] at h
      rw [occurrences, if_neg hnot, ih (by omega)]

theorem occurrences_self (hpart : part ≠ []) : occurrences part part = 1 := by
  cases part with
  | nil => exact absurd rfl hpart
  | cons c part =>
      rw [occurrences, if_pos List.prefix_rfl, occurrences_of_length_lt (Nat.lt_succ_self _)]

/-! ## A part between two equal marks -/

section

variable {d x : α} {n : List α}

theorem occurrences_unmarked (hn : d ∉ n) (b : List α) :
    occurrences [d, x, d] (n ++ b) = occurrences [d, x, d] b := by
  induction n with
  | nil => rfl
  | cons c n ih =>
      obtain ⟨hc, hn⟩ := not_or.mp (List.mem_cons.not.mp hn)
      have hnot : ¬[d, x, d] <+: c :: (n ++ b) := fun h => hc (List.cons_prefix_cons.mp h).1
      rw [List.cons_append, occurrences, if_neg hnot, ih hn, Nat.zero_add]

/-- What is put between two lists begins no place, when the mark is not in it. -/
theorem occurrences_between (hn : d ∉ n) (hne : n ≠ []) (hx : n ≠ [x]) (a b : List α) :
    occurrences [d, x, d] (a ++ (n ++ b)) = occurrences [d, x, d] a + occurrences [d, x, d] b := by
  induction a with
  | nil => rw [List.nil_append, occurrences_unmarked hn, occurrences, Nat.zero_add]
  | cons c a ih =>
      have hplace : [d, x, d] <+: c :: (a ++ (n ++ b)) ↔ [d, x, d] <+: c :: a := by
        cases n with
        | nil => exact absurd rfl hne
        | cons e n =>
            obtain ⟨he, hn'⟩ := not_or.mp (List.mem_cons.not.mp hn)
            simp only [List.cons_prefix_cons]
            refine and_congr_right fun _ => ?_
            cases a with
            | nil =>
                simp only [List.nil_append, List.cons_append, List.cons_prefix_cons]
                refine iff_of_false ?_ (by simp)
                rintro ⟨rfl, hd⟩
                cases n with
                | nil => exact hx rfl
                | cons e' n => exact hn' (by simp [(List.cons_prefix_cons.mp hd).1])
            | cons f a =>
                simp only [List.cons_append, List.cons_prefix_cons]
                refine and_congr_right fun _ => ?_
                cases a with
                | nil => simp [he]
                | cons g a => simp
      simp only [List.cons_append, occurrences, hplace, ih]
      omega

end

end Freehal.Lib
