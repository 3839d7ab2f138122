import Freehal.Lib.Block
import Freehal.Lib.Text

/-!
# Texts in a block of memory

A byte is a character or the zero that ends a text.
-/

namespace Freehal.Lib

/-- Nothing is the zero at the end of a text. -/
abbrev Byte := Option Char

/-- The text that begins the cells, up to its zero. -/
def textOf : List (Option Byte) → Option Str
  | some (some c) :: cells => (textOf cells).map (c :: ·)
  | some none :: _ => some []
  | _ => none

namespace Block

variable {b : Block Byte} {n : Nat}

/-- The text at a position. -/
def text (b : Block Byte) (n : Nat) : Option Str := textOf (b.cells.drop n)

theorem text_zero (h : b.read n = some none) : b.text n = some [] := by
  obtain ⟨hlt, hcell⟩ := cell_of_read h
  rw [text, List.drop_eq_getElem_cons hlt, hcell, textOf]

theorem text_char {c : Char} (h : b.read n = some (some c)) :
    b.text n = (b.text (n + 1)).map (c :: ·) := by
  obtain ⟨hlt, hcell⟩ := cell_of_read h
  rw [text, List.drop_eq_getElem_cons hlt, hcell, textOf, text]

/-- The characters of a text and a zero behind them. -/
theorem text_eq {t : Str} (h : ∀ i ≤ t.length, b.read (n + i : Nat) = some t[i]?) :
    b.text n = some t := by
  induction t generalizing n with
  | nil => exact text_zero (h 0 (Nat.le_refl 0))
  | cons c t ih =>
      have hc := h 0 (Nat.zero_le _)
      have hrest : b.text (n + 1) = some t := by
        apply ih
        intro i hi
        have hi := h (i + 1) (by simpa using hi)
        rwa [List.getElem?_cons_succ, Nat.add_comm i 1, ← Nat.add_assoc] at hi
      rw [Nat.add_zero, List.getElem?_cons_zero] at hc
      rw [text_char hc, hrest]
      rfl

end Block

end Freehal.Lib
