import Freehal.Lib.CString
import Freehal.Lib.Loop
import Freehal.Universal.Text

/-!
# Matching with wildcards, in memory

`matches` with its local copy of the pattern, a buffer of 5123 bytes. The loop over the pattern
moves its pointer behind a star and reduces the length by one less, so each star moves the end that
it looks for one byte further behind the pattern.
-/

namespace Freehal.Universal

open Lib (Byte Block Fault inside loop)

/-- What the last three bytes of the buffer hold when a call begins. Nothing writes them. -/
abbrev Stack := Str → Str → Fin 3 → Byte

/-- `strncpy(c, b, 5120)`, which fills up with zeros. -/
def strncpy (rest : Fin 3 → Byte) (b : Str) : Block Byte :=
  ⟨((b.take 5120).map some ++ List.replicate (5120 - b.length) none ++
    [rest 0, rest 1, rest 2]).map some⟩

/-- The variables of a loop: the buffer, the pointer `c` into it, and the rest. -/
structure Scan where
  buf : Block Byte
  c : Nat
  i : Nat
  size : Nat
  q : Bool

/-- `q || strstr(a, c)` -/
def orFound (q : Bool) (a : Str) (buf : Block Byte) (c : Nat) : Except Fault Bool :=
  if q then .ok true else (inside (buf.text c)).map (strstr a)

/-- `q && strstr(a, c)` -/
def andFound (q : Bool) (a : Str) (buf : Block Byte) (c : Nat) : Except Fault Bool :=
  if q then (inside (buf.text c)).map (strstr a) else .ok false

/-- The loop over a pattern that holds a star, but not in front. -/
def starStep (a : Str) (s : Scan) : Except Fault (Scan ⊕ Bool) :=
  if s.i < s.size ∨ s.i = s.size then do
    let ch ← inside (s.buf.read (s.c + s.i : Nat))
    if ch = some '*' ∨ s.i = s.size then
      let buf ← inside (s.buf.write (s.c + s.i : Nat) none)
      let q ← orFound s.q a buf s.c
      if s.size ≤ s.i + 2 then .ok (.inr q)
      else .ok (.inl ⟨buf, s.c + (s.i + 1), 0, s.size - s.i, q⟩)
    else .ok (.inl { s with i := s.i + 1 })
  else .ok (.inr s.q)

/-- The loop over a pattern that holds an underscore, but not in front. -/
def underscoreStep (a : Str) (s : Scan) : Except Fault (Scan ⊕ Bool) :=
  if s.i < s.size then do
    let ch ← inside (s.buf.read (s.c + s.i : Nat))
    if ch = some '_' then
      let buf ← inside (s.buf.write (s.c + s.i : Nat) none)
      let q ← andFound s.q a buf s.c
      let buf ← inside (buf.write (s.c + s.i : Nat) (if s.size ≤ s.i + 2 then none else some ' '))
      .ok (.inl ⟨buf, s.c, s.i + 1, s.size, q⟩)
    else .ok (.inl { s with i := s.i + 1 })
  else .ok (.inr s.q)

/-- `matches` -/
def matchesIn (stack : Stack) : Nat → Str → Str → Except Fault Bool
  | 0, _, _ => .error .fuel
  | fuel + 1, a, b =>
      if a = b then .ok true
      else if '*' ∈ b then do
        let c := strncpy (stack a b) b
        if (← inside (c.read 0)) = some '*' then
          let b ← inside (c.text 1)
          matchesIn stack fuel a b
        else
          let text ← inside (c.text 0)
          if '*' ∈ text then loop (starStep a) fuel ⟨c, 0, 0, text.length, false⟩
          else .ok (strstr a text)
      else if '_' ∈ b then do
        let c := strncpy (stack a b) b
        if (← inside (c.read 0)) = some '_' then
          let b ← inside (c.text 1)
          matchesIn stack fuel a b
        else
          let text ← inside (c.text 0)
          if '_' ∈ text then loop (underscoreStep a) fuel ⟨c, 0, 0, text.length, true⟩
          else .ok (strstr a text)
      else if '*' ∈ a then matchesIn stack fuel b a
      else .ok false

/-! ## The copy -/

variable {a b P : Str} {rest : Fin 3 → Byte} {stack : Stack} {s : Scan} {j k : Nat}

theorem cells_strncpy (h : P.length < 5120) :
    (strncpy rest P).cells =
      (P.map some ++ (List.replicate (5120 - P.length) none ++ [rest 0, rest 1, rest 2])).map some := by
  rw [strncpy, List.take_of_length_le (by omega), List.append_assoc]

theorem size_strncpy (h : P.length < 5120) : (strncpy rest P).size = 5123 := by
  simp only [Block.size, cells_strncpy h, List.length_map, List.length_append,
    List.length_replicate, List.length_cons, List.length_nil]
  omega

/-- The text and the zeros behind it. -/
theorem read_strncpy (h : P.length < 5120) (hj : j < 5120) :
    (strncpy rest P).read j = some P[j]? := by
  apply Block.read_of_cell
  rw [cells_strncpy h, List.getElem?_map]
  by_cases hlt : j < P.length
  · rw [List.getElem?_append_left (by simpa using hlt), List.getElem?_map,
      List.getElem?_eq_getElem hlt]
    rfl
  · have hzero : j - P.length < 5120 - P.length := by omega
    have hnone : P[j]? = none := List.getElem?_eq_none (by omega)
    have hle : (P.map some).length ≤ j := by
      rw [List.length_map]
      omega
    have hleft : j - (P.map some).length < (List.replicate (5120 - P.length) (none : Byte)).length := by
      rw [List.length_map, List.length_replicate]
      exact hzero
    rw [List.getElem?_append_right hle, List.getElem?_append_left hleft, List.getElem?_replicate,
      List.length_map, if_pos hzero, hnone, Option.map_some]

/-- The last three bytes. -/
theorem read_strncpy_rest (h : P.length < 5120) (hj : 5120 ≤ j) (hlt : j < 5123) :
    ∃ i, (strncpy rest P).read j = some (rest i) := by
  have hcell : (strncpy rest P).cells[j]? = ([rest 0, rest 1, rest 2].map some)[j - 5120]? := by
    have hpos : j - P.length - (5120 - P.length) = j - 5120 := by omega
    rw [cells_strncpy h, List.getElem?_map, List.getElem?_append_right (by simp; omega),
      List.length_map, List.getElem?_append_right (by simp; omega), List.length_replicate, hpos,
      List.getElem?_map]
  have hcases : j - 5120 = 0 ∨ j - 5120 = 1 ∨ j - 5120 = 2 := by omega
  rcases hcases with hj | hj | hj
  · exact ⟨0, Block.read_of_cell (by rw [hcell, hj]; rfl)⟩
  · exact ⟨1, Block.read_of_cell (by rw [hcell, hj]; rfl)⟩
  · exact ⟨2, Block.read_of_cell (by rw [hcell, hj]; rfl)⟩

theorem text_strncpy (h : P.length < 5120) (hk : k ≤ P.length) :
    (strncpy rest P).text k = some (P.drop k) := by
  apply Block.text_eq
  intro i hi
  rw [List.length_drop] at hi
  rw [read_strncpy h (by omega), List.getElem?_drop]

end Freehal.Universal
