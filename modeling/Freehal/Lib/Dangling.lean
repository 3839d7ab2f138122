import Mathlib.Algebra.Group.Even
import Mathlib.Algebra.Ring.Parity
import Mathlib.Data.List.DropRight

/-!
# Elements that take the next one

A list is read from its start, and where `p` holds of an element, the next one is read with it,
whatever it is. Whether the last element is left without a next one shows at the end of the list:
those of which `p` holds are odd in number there.
-/

namespace Freehal.Lib

variable {α : Type} (p : α → Bool)

/-- Whether `p` holds of the last element that is read, and nothing follows it. -/
def dangles : List α → Bool
  | [] => false
  | [a] => p a
  | a :: b :: l => if p a then dangles l else dangles (b :: l)

variable {p}

theorem dangles_taken {a : α} (ha : p a = true) (b : α) (l : List α) :
    dangles p (a :: b :: l) = dangles p l := by
  rw [dangles, if_pos ha]

theorem dangles_cons {a : α} (ha : p a = false) (l : List α) :
    dangles p (a :: l) = dangles p l := by
  cases l with
  | nil => exact ha
  | cons b l => rw [dangles, if_neg (by simp [ha])]

/-- What stands in front of an element of which `p` does not hold makes no difference. -/
theorem dangles_append_cons {a : α} (ha : p a = false) (l r : List α) :
    dangles p (l ++ a :: r) = dangles p r := by
  fun_induction dangles p l with
  | case1 => exact dangles_cons ha r
  | case2 b =>
      cases hb : p b with
      | true => exact dangles_taken hb a r
      | false => exact (dangles_cons hb _).trans (dangles_cons ha r)
  | case3 b c l hb ih => exact (dangles_taken hb c _).trans ih
  | case4 b c l hb ih => exact (dangles_cons (by simpa using hb) _).trans ih

theorem dangles_of_all {l : List α} (h : ∀ a ∈ l, p a = true) :
    dangles p l = true ↔ Odd l.length := by
  fun_induction dangles p l with
  | case1 => simp
  | case2 a => simp [h a]
  | case3 a b l ha ih =>
      rw [ih fun c hc => h c (by simp [hc]), List.length_cons, List.length_cons, Nat.odd_add_one,
        Nat.odd_add_one, not_not]
  | case4 a b l ha ih => exact (ha (h a (by simp))).elim

/-- The last element has no next one exactly where an odd number of them is at the end. -/
theorem dangles_iff {l : List α} : dangles p l = true ↔ Odd (l.rtakeWhile p).length := by
  have hall : ∀ a ∈ l.rtakeWhile p, p a = true := fun a => List.mem_rtakeWhile_imp
  rw [← dangles_of_all hall]
  rcases List.eq_nil_or_concat (l.rdropWhile p) with hd | ⟨pre, a, hd⟩
  · have hl : l.rtakeWhile p = l := by
      simpa [hd] using List.rdropWhile_append_rtakeWhile (l := l) (p := p)
    rw [hl]
  · have ha : p a = false := by
      have hlast := List.rdropWhile_last_not p l (by simp [hd])
      simpa [hd] using hlast
    conv_lhs => rw [← List.rdropWhile_append_rtakeWhile (l := l) (p := p), hd,
      List.concat_eq_append, List.append_assoc, List.singleton_append, dangles_append_cons ha]

end Freehal.Lib
