import Mathlib.Data.List.TakeWhile
import Freehal.Universal.Text

/-!
# Numbers as texts

Reading back the decimal notation of a number.
-/

namespace Freehal.Universal

theorem isSpace_of_isDigit {c : Char} (h : c.isDigit = true) : isSpace c = false := by
  by_contra hs
  have hs : isSpace c = true := by simpa using hs
  simp only [isSpace, List.mem_cons, List.not_mem_nil, or_false, decide_eq_true_eq] at hs
  rcases hs with rfl | rfl | rfl | rfl | rfl | rfl <;> revert h <;> decide

theorem atoi_decimal (n : Nat) : atoi (Lib.decimal n) = n := by
  have hdigit : ∀ c ∈ Lib.decimal n, c.isDigit = true := fun c hc => Lib.isDigit_of_mem_decimal hc
  have hvalue := Lib.ofDigitChars_decimal n
  cases hd : Lib.decimal n with
  | nil => exact absurd hd (Lib.decimal_ne_nil n)
  | cons c digits =>
      rw [hd] at hdigit hvalue
      have hc := hdigit c (by simp)
      have htake : (c :: digits).takeWhile Char.isDigit = c :: digits :=
        List.takeWhile_eq_self_iff.mpr hdigit
      have hdrop : (c :: digits).dropWhile isSpace = c :: digits := by
        simp [isSpace_of_isDigit hc]
      unfold atoi
      rw [hdrop]
      split
      · rename_i h; cases h; exact absurd hc (by decide)
      · rename_i h; cases h; exact absurd hc (by decide)
      · rw [htake, hvalue]

theorem toNumber_signed (i : Int) : toNumber (Lib.signed i) = i.natAbs := by
  unfold Lib.signed
  split
  · simp only [toNumber]
    exact atoi_decimal _
  · have hne := Lib.decimal_ne_nil i.natAbs
    have hdash : '-' ∉ Lib.decimal i.natAbs := Lib.not_mem_decimal (by decide)
    unfold toNumber
    split
    · exact absurd ‹_› hne
    · rename_i h; simp [h] at hdash
    · exact atoi_decimal _

end Freehal.Universal
