import Freehal.Universal.Wildcards.Copy

/-!
# The loop over the stars

The loop stays in the buffer as long as the pattern and one byte for each star do.
-/

namespace Freehal.Universal

open Lib (Byte Block Fault inside loop)

variable {a P : Str} {rest : Fin 3 → Byte} {s : Scan} {k : Nat}

/-- A state of the loop: the buffer is unchanged from the pointer on, `k` stars are behind it, and
each of them moved the end by one byte. -/
structure Scanning (rest : Fin 3 → Byte) (P : Str) (k : Nat) (s : Scan) : Prop where
  size : s.buf.size = 5123
  buf : ∀ j : Nat, s.c ≤ j → s.buf.read j = (strncpy rest P).read j
  drift : s.c + s.size = P.length + k
  index : s.i ≤ s.size
  pointer : s.c ≤ P.length
  stars : k + (P.drop (s.c + s.i)).count '*' = P.count '*'

/-- The part of the pattern from the pointer to the current byte. -/
def Scan.part (P : Str) (s : Scan) : Str := (P.drop s.c).take s.i

theorem Scanning.bounds (h : Scanning rest P k s) (hout : 5123 ≤ s.c + s.i) :
    starStep a s = .error .bounds := by
  have hread : s.buf.read (s.c + s.i : Nat) = none :=
    Block.read_of_size_le (by rw [h.size]; omega)
  have hindex : s.i < s.size ∨ s.i = s.size := by
    have := h.index
    omega
  rw [starStep, if_pos hindex, hread, Lib.inside_none, Lib.error_bind]

/-- A byte that is neither a star nor at the end. -/
theorem Scanning.skip (h : Scanning rest P k s) {ch : Byte}
    (hread : s.buf.read (s.c + s.i : Nat) = some ch) (hch : ch ≠ some '*') (hend : s.i ≠ s.size) :
    starStep a s = .ok (.inl { s with i := s.i + 1 }) := by
  have hindex : s.i < s.size ∨ s.i = s.size := by
    have := h.index
    omega
  rw [starStep, if_pos hindex, hread, Lib.inside_some, Lib.ok_bind, if_neg (by simp [hch, hend])]

/-- A star or the end: the part in front of it is looked for. -/
theorem Scanning.compare (h : Scanning rest P k s) (hP : P.length < 5120) {ch : Byte}
    (hread : s.buf.read (s.c + s.i : Nat) = some ch) (hch : ch = some '*' ∨ s.i = s.size) :
    ∃ buf, s.buf.write (s.c + s.i : Nat) none = some buf ∧ starStep a s =
      .ok (if s.size ≤ s.i + 2 then .inr (s.q || strstr a (s.part P))
        else .inl ⟨buf, s.c + (s.i + 1), 0, s.size - s.i, s.q || strstr a (s.part P)⟩) := by
  have hindex : s.i < s.size ∨ s.i = s.size := by
    have := h.index
    omega
  have hin : s.c + s.i < 5123 := by
    by_contra hout
    rw [Block.read_of_size_le (by rw [h.size]; omega)] at hread
    cases hread
  obtain ⟨buf, hwrite⟩ := @Block.exists_write _ s.buf none (s.c + s.i : Nat) (by omega)
    (by rw [h.size]; omega)
  have htext : buf.text s.c = some (s.part P) := by
    apply Block.text_eq
    intro i hi
    simp only [Scan.part, List.length_take, List.length_drop] at hi
    simp only [Scan.part, List.getElem?_take, List.getElem?_drop]
    by_cases heq : s.c + i = s.c + s.i
    · rw [heq, Block.read_write_self hwrite, if_neg (by omega)]
    · have hpointer := h.pointer
      rw [Block.read_write_of_ne hwrite (by omega), h.buf _ (by omega), read_strncpy hP (by omega),
        if_pos (by omega)]
  refine ⟨buf, hwrite, ?_⟩
  have hq : orFound s.q a buf s.c = .ok (s.q || strstr a (s.part P)) := by
    rw [orFound, htext]
    cases s.q <;> rfl
  rw [starStep, if_pos hindex, hread, Lib.inside_some, Lib.ok_bind, if_pos hch, hwrite,
    Lib.inside_some, Lib.ok_bind, hq, Lib.ok_bind]
  split <;> rfl

theorem Scan.length_part (h : s.c + s.i ≤ P.length) : (s.part P).length = s.i := by
  rw [part, List.length_take, List.length_drop]
  omega

theorem Scan.part_next (h : s.c + s.i < P.length) :
    Scan.part P { s with i := s.i + 1 } = s.part P ++ [P[s.c + s.i]] := by
  have hlt : s.i < (P.drop s.c).length := by
    rw [List.length_drop]
    omega
  rw [part, part, List.take_succ_eq_append_getElem hlt, List.getElem_drop]

theorem Scan.part_end (h : P.length ≤ s.c + s.i) :
    Scan.part P { s with i := s.i + 1 } = s.part P := by
  have hle : (P.drop s.c).length ≤ s.i := by
    rw [List.length_drop]
    omega
  have hle' : (P.drop s.c).length ≤ s.i + 1 := by omega
  rw [part, part, List.take_of_length_le hle, List.take_of_length_le hle']

theorem Scanning.start (hP : P.length < 5120) :
    Scanning rest P 0 ⟨strncpy rest P, 0, 0, P.length, false⟩ where
  size := size_strncpy hP
  buf _ _ := rfl
  drift := by simp
  index := Nat.zero_le _
  pointer := Nat.zero_le _
  stars := by simp

/-- The next byte. -/
theorem Scanning.next (h : Scanning rest P k s) (hlt : s.i < s.size)
    (hch : P[s.c + s.i]? ≠ some '*') : Scanning rest P k { s with i := s.i + 1 } := by
  refine ⟨h.size, h.buf, h.drift, hlt, h.pointer, ?_⟩
  show k + (P.drop (s.c + (s.i + 1))).count '*' = _
  rw [← h.stars, ← Nat.add_assoc]
  by_cases hin : s.c + s.i < P.length
  · rw [List.drop_eq_getElem_cons hin, List.count_cons_of_ne]
    rintro heq
    rw [List.getElem?_eq_getElem hin, heq] at hch
    exact hch rfl
  · rw [List.drop_eq_nil_of_le (by omega), List.drop_eq_nil_of_le (by omega)]

/-- Behind a star. -/
theorem Scanning.restart (h : Scanning rest P k s) {buf : Block Byte} {q : Bool}
    (hwrite : s.buf.write (s.c + s.i : Nat) none = some buf) (hch : P[s.c + s.i]? = some '*') :
    Scanning rest P (k + 1) ⟨buf, s.c + (s.i + 1), 0, s.size - s.i, q⟩ := by
  obtain ⟨hlt, hstar⟩ := List.getElem?_eq_some_iff.mp hch
  have hdrift := h.drift
  have hindex := h.index
  refine ⟨(Block.size_write hwrite).trans h.size, ?_, ?_, Nat.zero_le _, hlt, ?_⟩
  · intro j hj
    simp only at hj
    rw [Block.read_write_of_ne hwrite (by omega), h.buf j (by omega)]
  · simp only
    omega
  · rw [← h.stars, List.drop_eq_getElem_cons hlt, hstar, List.count_cons_self]
    simp only [Nat.add_zero, ← Nat.add_assoc]
    omega

/-! ## A pattern that fits -/

/-- The end that the loop looks for, one byte behind the pattern for each star, is in the buffer. -/
def Fits (P : Str) : Prop := P.length + P.count '*' ≤ 5122

theorem Scanning.byte (h : Scanning rest P k s) (hP : P.length < 5120) (hin : s.c + s.i < 5123) :
    ∃ ch, s.buf.read (s.c + s.i : Nat) = some ch ∧
      (s.c + s.i < 5120 → ch = P[s.c + s.i]?) ∧ (5120 ≤ s.c + s.i → ∃ i, ch = rest i) := by
  rw [h.buf _ (Nat.le_add_right _ _)]
  by_cases hlt : s.c + s.i < 5120
  · exact ⟨_, read_strncpy hP hlt, fun _ => rfl, fun hge => absurd hlt (by omega)⟩
  · obtain ⟨i, hi⟩ := @read_strncpy_rest _ rest _ hP (by omega) hin
    exact ⟨_, hi, fun h => absurd h hlt, fun _ => ⟨i, rfl⟩⟩

/-- The value that the rest of the loop computes. -/
def starValue (a P : Str) (s : Scan) : Bool :=
  s.q || starLoop a (s.part P) s.size (P.drop (s.c + s.i))

theorem Scanning.le_end (h : Scanning rest P k s) : s.c + s.i ≤ P.length + k := by
  have := h.drift
  have := h.index
  omega

theorem starValue_star (hch : P[s.c + s.i]? = some '*') :
    starValue a P s = (s.q || (strstr a (s.part P) || (!decide (s.size ≤ s.i + 2) &&
      starLoop a [] (s.size - s.i) (P.drop (s.c + (s.i + 1)))))) := by
  obtain ⟨hlt, hstar⟩ := List.getElem?_eq_some_iff.mp hch
  rw [starValue, List.drop_eq_getElem_cons hlt, hstar, starLoop, if_pos rfl,
    Scan.length_part (Nat.le_of_lt hlt), Nat.add_assoc]

theorem starValue_end (h : P.length ≤ s.c + s.i) :
    starValue a P s = (s.q || strstr a (s.part P)) := by
  rw [starValue, List.drop_eq_nil_of_le h, starLoop]

theorem starValue_next (hch : P[s.c + s.i]? ≠ some '*') :
    starValue a P { s with i := s.i + 1 } = starValue a P s := by
  by_cases hlt : s.c + s.i < P.length
  · have hne : ¬ P[s.c + s.i] = '*' := by
      intro heq
      rw [List.getElem?_eq_getElem hlt, heq] at hch
      exact hch rfl
    rw [starValue, starValue, Scan.part_next hlt, List.drop_eq_getElem_cons hlt, starLoop,
      if_neg hne, Nat.add_assoc]
  · have hle : P.length ≤ s.c + (s.i + 1) := by omega
    have hnext : starValue a P { s with i := s.i + 1 } = _ := starValue_end hle
    rw [hnext, starValue_end (by omega), Scan.part_end (by omega)]

theorem Scanning.steps {value : Bool} (hP : P.length < 5120) (hfits : Fits P) (s : Scan)
    (hs : (∃ k, Scanning rest P k s) ∧ starValue a P s = value) :
    Lib.Steps (fun s => (∃ k, Scanning rest P k s) ∧ starValue a P s = value)
      (fun s => 5123 - (s.c + s.i)) (· = value) s (starStep a s) := by
  obtain ⟨⟨k, h⟩, rfl⟩ := hs
  have hend := h.le_end
  have hstars := h.stars
  have hdrift := h.drift
  have hindex := h.index
  simp only [Fits] at hfits
  obtain ⟨ch, hread, hlow, -⟩ := h.byte hP (by omega)
  by_cases hcompare : ch = some '*' ∨ s.i = s.size
  · obtain ⟨buf, hwrite, hstep⟩ := h.compare (a := a) hP hread hcompare
    rw [hstep]
    by_cases hlast : s.size ≤ s.i + 2
    · rw [if_pos hlast]
      apply Lib.Steps.done
      by_cases hlt : s.c + s.i < P.length
      · have hch : P[s.c + s.i]? = some '*' := by
          rw [← hlow (by omega)]
          exact hcompare.resolve_right (by omega)
        rw [starValue_star hch]
        simp [hlast]
      · rw [starValue_end (by omega)]
    · -- the end is more than a byte ahead, and so this star is one of the pattern
      have hch : P[s.c + s.i]? = some '*' := by
        rw [← hlow (by omega)]
        exact hcompare.resolve_right (by omega)
      rw [if_neg hlast]
      refine Lib.Steps.next ⟨⟨k + 1, h.restart hwrite hch⟩, ?_⟩ ?_
      · rw [starValue_star hch, starValue]
        simp [Scan.part, hlast, Bool.or_assoc]
      · simp only
        omega
  · obtain ⟨hne, hsize⟩ := not_or.mp hcompare
    have hch : P[s.c + s.i]? ≠ some '*' := by
      by_cases hlt : s.c + s.i < 5120
      · rwa [← hlow hlt]
      · rw [List.getElem?_eq_none (by omega)]
        simp
    rw [h.skip hread hne hsize]
    refine Lib.Steps.next ⟨⟨k, h.next (by omega) hch⟩, starValue_next hch⟩ ?_
    simp only
    omega

/-- The loop over a pattern that fits stays in the buffer and compares as the texts do. -/
theorem loop_starStep (hP : P.length < 5120) (hfits : Fits P) {fuel : Nat} (hfuel : 5123 < fuel) :
    loop (starStep a) fuel ⟨strncpy rest P, 0, 0, P.length, false⟩ =
      .ok (starLoop a [] P.length P) := by
  obtain ⟨r, hr, rfl⟩ := Lib.loop_total (Scanning.steps (a := a) hP hfits)
    ⟨⟨0, @Scanning.start _ rest hP⟩, rfl⟩ (by simpa using hfuel)
  rw [hr, starValue]
  simp [Scan.part]

/-! ## A pattern that does not fit -/

theorem Scanning.goesOn (hP : P.length < 5120) (hfits : ¬ Fits P) (s : Scan)
    (hs : ∃ k, Scanning (fun _ => none) P k s) :
    starStep a s = .error .bounds ∨
      ∃ s', starStep a s = .ok (.inl s') ∧ ∃ k, Scanning (fun _ => none) P k s' := by
  obtain ⟨k, h⟩ := hs
  have hend := h.le_end
  have hstars := h.stars
  have hdrift := h.drift
  have hindex := h.index
  simp only [Fits] at hfits
  by_cases hin : s.c + s.i < 5123
  · right
    obtain ⟨ch, hread, hlow, hhigh⟩ := h.byte hP hin
    by_cases hcompare : ch = some '*' ∨ s.i = s.size
    · obtain ⟨buf, hwrite, hstep⟩ := h.compare (a := a) hP hread hcompare
      have hlt : s.c + s.i < P.length := by
        by_contra hge
        have hzero : ch ≠ some '*' := by
          by_cases hlt : s.c + s.i < 5120
          · rw [hlow hlt, List.getElem?_eq_none (by omega)]
            simp
          · obtain ⟨_, hrest⟩ := hhigh (by omega)
            simp [hrest]
        have hsize := hcompare.resolve_left hzero
        rw [List.drop_eq_nil_of_le (by omega), List.count_nil] at hstars
        omega
      have hch : P[s.c + s.i]? = some '*' := by
        rw [← hlow (by omega)]
        exact hcompare.resolve_right (by omega)
      have hlast : ¬ s.size ≤ s.i + 2 := by
        have hcount := @List.count_le_length _ _ '*' (P.drop (s.c + s.i))
        rw [List.length_drop] at hcount
        omega
      rw [hstep, if_neg hlast]
      exact ⟨_, rfl, k + 1, h.restart hwrite hch⟩
    · obtain ⟨hne, hsize⟩ := not_or.mp hcompare
      have hch : P[s.c + s.i]? ≠ some '*' := by
        by_cases hlt : s.c + s.i < 5120
        · rwa [← hlow hlt]
        · rw [List.getElem?_eq_none (by omega)]
          simp
      exact ⟨_, h.skip hread hne hsize, k, h.next (by omega) hch⟩
  · exact Or.inl (h.bounds (by omega))

theorem loop_starStep_never (hP : P.length < 5120) (hfits : ¬ Fits P) (fuel : Nat) (r : Bool) :
    loop (starStep a) fuel ⟨strncpy (fun _ => none) P, 0, 0, P.length, false⟩ ≠ .ok r :=
  Lib.loop_never (Scanning.goesOn hP hfits) ⟨0, Scanning.start hP⟩ fuel r

/-- Whatever the buffer holds, the loop comes to its end or to the end of the buffer. -/
theorem starStep_stops (s : Scan) (hs : s.buf.size = 5123) :
    starStep a s = .error .bounds ∨
      Lib.Steps (fun s => s.buf.size = 5123) (fun s => 5123 - (s.c + s.i)) (fun _ => True) s
        (starStep a s) := by
  rw [starStep]
  by_cases hindex : s.i < s.size ∨ s.i = s.size
  · rw [if_pos hindex]
    cases hread : s.buf.read (s.c + s.i : Nat) with
    | none => exact Or.inl rfl
    | some ch =>
        have hin : s.c + s.i < 5123 := by
          by_contra hout
          rw [Block.read_of_size_le (by rw [hs]; omega)] at hread
          cases hread
        rw [Lib.inside_some, Lib.ok_bind]
        by_cases hch : ch = some '*' ∨ s.i = s.size
        · rw [if_pos hch]
          cases hwrite : s.buf.write (s.c + s.i : Nat) none with
          | none => exact Or.inl rfl
          | some buf =>
              rw [Lib.inside_some, Lib.ok_bind]
              cases hq : orFound s.q a buf s.c with
              | error fault =>
                  left
                  rw [orFound] at hq
                  cases htext : buf.text s.c <;> cases hsq : s.q <;> simp [htext, hsq, Except.map] at hq
                  rw [← hq]
                  rfl
              | ok q =>
                  right
                  rw [Lib.ok_bind]
                  split
                  · exact Lib.Steps.done trivial
                  · refine Lib.Steps.next ((Block.size_write hwrite).trans hs) ?_
                    simp only
                    omega
        · rw [if_neg hch]
          refine Or.inr (Lib.Steps.next hs ?_)
          simp only
          omega
  · rw [if_neg hindex]
    exact Or.inr (Lib.Steps.done trivial)

end Freehal.Universal
