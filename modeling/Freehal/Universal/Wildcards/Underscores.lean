import Freehal.Universal.Wildcards.Copy

/-!
# The loop over the underscores

Each underscore becomes a blank behind the part that was looked for, and the loop never leaves the
pattern.
-/

namespace Freehal.Universal

open Lib (Byte Block Fault inside loop)

variable {a P : Str} {rest : Fin 3 → Byte} {s : Scan} {k : Nat}

/-- A state of the loop: `acc` is what the bytes in front of the current one are, up to the zero
that was put at `cut`. -/
structure Underscoring (rest : Fin 3 → Byte) (P acc : Str) (cut : Option Nat) (s : Scan) : Prop where
  bytes : s.buf.size = 5123
  pointer : s.c = 0
  size : s.size = P.length
  index : s.i ≤ P.length
  length : acc.length = s.i
  before : ∀ j < cut.getD s.i, s.buf.read (j : Nat) = some acc[j]?
  zero : ∀ m, cut = some m → m < s.i ∧ s.buf.read (m : Nat) = some none
  after : ∀ j : Nat, s.i ≤ j → s.buf.read j = (strncpy rest P).read j

def underscoreValue (a P acc : Str) (cut : Option Nat) (s : Scan) : Bool :=
  s.q && underscoreLoop a s.size acc cut (P.drop s.i)

theorem Underscoring.start (hP : P.length < 5120) :
    Underscoring rest P [] none ⟨strncpy rest P, 0, 0, P.length, true⟩ where
  bytes := size_strncpy hP
  pointer := rfl
  size := rfl
  index := Nat.zero_le _
  length := rfl
  before j hj := absurd hj (Nat.not_lt_zero j)
  zero m hm := by cases hm
  after _ _ := rfl

/-- The text that is looked for at an underscore. -/
theorem Underscoring.text {acc : Str} {cut : Option Nat} (h : Underscoring rest P acc cut s)
    {buf : Block Byte} (hwrite : s.buf.write (s.c + s.i : Nat) none = some buf) :
    buf.text s.c = some (acc.take (cut.getD acc.length)) := by
  have hlength := h.length
  have hpointer := h.pointer
  have hwrite : s.buf.write (s.i : Nat) none = some buf := by
    rwa [h.pointer, Nat.zero_add] at hwrite
  rw [h.pointer]
  apply Block.text_eq
  intro j hj
  rw [List.length_take] at hj
  rw [Nat.zero_add, List.getElem?_take]
  cases hcut : cut with
  | none =>
      simp only [hcut, Option.getD_none, Nat.min_self] at hj ⊢
      by_cases heq : j = s.i
      · rw [heq, Block.read_write_self hwrite, if_neg (by omega)]
      · have hlt : j < cut.getD s.i := by
          rw [hcut, Option.getD_none]
          omega
        rw [Block.read_write_of_ne hwrite (by omega), h.before j hlt, if_pos (by omega)]
  | some m =>
      obtain ⟨hm, hzero⟩ := h.zero m hcut
      simp only [hcut, Option.getD_some] at hj ⊢
      rw [Block.read_write_of_ne hwrite (by omega)]
      by_cases heq : j = m
      · rw [heq, hzero, if_neg (by omega)]
      · have hlt : j < cut.getD s.i := by
          rw [hcut, Option.getD_some]
          omega
        rw [h.before j hlt, if_pos (by omega)]

theorem Underscoring.cut_le {acc : Str} {cut : Option Nat} (h : Underscoring rest P acc cut s) :
    cut.getD s.i ≤ s.i := by
  cases hcut : cut with
  | none => exact Nat.le_refl _
  | some m => exact Nat.le_of_lt (h.zero m hcut).1

/-- Only the next byte comes to those before the first zero. -/
theorem eq_of_lt_cut {cut : Option Nat} {i j : Nat} (hj : j < cut.getD (i + 1))
    (hprev : ¬ j < cut.getD i) : j = i := by
  cases cut with
  | none =>
      simp only [Option.getD_none] at hj hprev
      omega
  | some m => exact absurd hj hprev

/-- Another byte. -/
theorem Underscoring.next {acc : Str} {cut : Option Nat} (h : Underscoring rest P acc cut s)
    (hP : P.length < 5120) (hlt : s.i < P.length) :
    Underscoring rest P (acc ++ [P[s.i]]) cut { s with i := s.i + 1 } := by
  have hlength := h.length
  refine ⟨h.bytes, h.pointer, h.size, hlt, by simp [hlength], ?_, ?_, ?_⟩
  · intro j hj
    simp only at hj ⊢
    by_cases hprev : j < cut.getD s.i
    · have hle := h.cut_le
      rw [h.before j hprev, List.getElem?_append_left (by omega)]
    · have heq : j = s.i := eq_of_lt_cut hj hprev
      rw [heq, h.after s.i (Nat.le_refl _), read_strncpy hP (by omega),
        List.getElem?_append_right (by omega), List.getElem?_eq_getElem hlt, hlength, Nat.sub_self]
      rfl
  · intro m hm
    obtain ⟨hlt, hzero⟩ := h.zero m hm
    exact ⟨Nat.lt_succ_of_lt hlt, hzero⟩
  · intro j hj
    exact h.after j (Nat.le_of_succ_le hj)

/-- An underscore becomes a blank, or the end of the text when it is one of the last two bytes. -/
theorem Underscoring.replace {acc : Str} {cut : Option Nat} (h : Underscoring rest P acc cut s)
    (hlt : s.i < P.length) {buf buf' : Block Byte} {q : Bool}
    (hwrite : s.buf.write (s.c + s.i : Nat) none = some buf)
    (hwrite' : buf.write (s.c + s.i : Nat) (if s.size ≤ s.i + 2 then none else some ' ') = some buf') :
    Underscoring rest P (acc ++ [' '])
      (if s.size ≤ acc.length + 2 then some (cut.getD acc.length) else cut)
      ⟨buf', s.c, s.i + 1, s.size, q⟩ := by
  have hlength := h.length
  have hle := h.cut_le
  rw [h.pointer, Nat.zero_add] at hwrite hwrite'
  have hother : ∀ j : Nat, j ≠ s.i → buf'.read j = s.buf.read j := by
    intro j hj
    rw [Block.read_write_of_ne hwrite' (by omega), Block.read_write_of_ne hwrite (by omega)]
  have hself := Block.read_write_self hwrite'
  refine ⟨?_, h.pointer, h.size, hlt, by simp [hlength], ?_, ?_, ?_⟩
  · rw [Block.size_write hwrite', Block.size_write hwrite, h.bytes]
  · intro j hj
    rw [hlength] at hj
    by_cases hprev : j < cut.getD s.i
    · rw [hother j (by omega), h.before j hprev, List.getElem?_append_left (by omega)]
    · have heq : j = s.i ∧ ¬ s.size ≤ s.i + 2 := by
        split at hj
        · exact absurd hj (by simpa using hprev)
        · case isFalse hnot => exact ⟨eq_of_lt_cut hj hprev, hnot⟩
      rw [heq.1, hself, if_neg heq.2, List.getElem?_append_right (by omega), hlength, Nat.sub_self]
      rfl
  · intro m hm
    rw [hlength] at hm
    have hcases : cut = some m ∨ (m = s.i ∧ s.size ≤ s.i + 2) := by
      split at hm
      · case isTrue hlast =>
          cases hcut : cut with
          | none =>
              rw [hcut] at hm
              exact Or.inr ⟨(Option.some.inj hm).symm, hlast⟩
          | some m' =>
              rw [hcut] at hm
              exact Or.inl hm
      · exact Or.inl hm
    rcases hcases with hcut | ⟨rfl, hlast⟩
    · obtain ⟨hlt, hzero⟩ := h.zero m hcut
      exact ⟨Nat.lt_succ_of_lt hlt, by rw [hother m (by omega), hzero]⟩
    · exact ⟨Nat.lt_succ_self _, by rw [hself, if_pos hlast]⟩
  · intro j hj
    simp only at hj
    rw [hother j (by omega), h.after j (by omega)]

theorem Underscoring.steps {value : Bool} (hP : P.length < 5120) (s : Scan)
    (hs : ∃ acc cut, Underscoring rest P acc cut s ∧ underscoreValue a P acc cut s = value) :
    Lib.Steps (fun s => ∃ acc cut, Underscoring rest P acc cut s ∧
      underscoreValue a P acc cut s = value) (fun s => P.length - s.i) (· = value) s
      (underscoreStep a s) := by
  obtain ⟨acc, cut, h, rfl⟩ := hs
  have hlength := h.length
  have hpointer := h.pointer
  rw [underscoreStep]
  by_cases hlt : s.i < P.length
  · have hread : s.buf.read (s.c + s.i : Nat) = some P[s.i]? := by
      rw [h.pointer, Nat.zero_add, h.after s.i (Nat.le_refl _), read_strncpy hP (by omega)]
    have hchar : P[s.i]? = some P[s.i] := List.getElem?_eq_getElem hlt
    rw [if_pos (by rw [h.size]; exact hlt), hread, Lib.inside_some, Lib.ok_bind]
    by_cases hch : P[s.i] = '_'
    · obtain ⟨buf, hwrite⟩ := @Block.exists_write _ s.buf none (s.c + s.i : Nat) (by omega)
        (by rw [h.bytes]; omega)
      obtain ⟨buf', hwrite'⟩ := @Block.exists_write _ buf
        (if s.size ≤ s.i + 2 then none else some ' ') (s.c + s.i : Nat) (by omega)
        (by rw [Block.size_write hwrite, h.bytes]; omega)
      have hq : andFound s.q a buf s.c = .ok (s.q && strstr a (acc.take (cut.getD acc.length))) := by
        rw [andFound, h.text hwrite]
        cases s.q <;> rfl
      rw [if_pos (by rw [hchar, hch]), hwrite, Lib.inside_some, Lib.ok_bind, hq, Lib.ok_bind,
        hwrite', Lib.inside_some, Lib.ok_bind]
      refine Lib.Steps.next ⟨_, _, h.replace hlt hwrite hwrite', ?_⟩ (by simp only; omega)
      rw [underscoreValue, underscoreValue, List.drop_eq_getElem_cons hlt, underscoreLoop,
        if_pos hch, Bool.and_assoc]
    · rw [if_neg (by rw [hchar]; simpa using hch)]
      refine Lib.Steps.next ⟨acc ++ [P[s.i]], cut, h.next hP hlt, ?_⟩ (by simp only; omega)
      rw [underscoreValue, underscoreValue, List.drop_eq_getElem_cons hlt, underscoreLoop, if_neg hch]
  · have hend : s.i = P.length := Nat.le_antisymm h.index (Nat.le_of_not_lt hlt)
    rw [if_neg (by rw [h.size]; exact hlt)]
    apply Lib.Steps.done
    rw [underscoreValue, List.drop_eq_nil_of_le (Nat.le_of_eq hend.symm), underscoreLoop, Bool.and_true]

end Freehal.Universal
