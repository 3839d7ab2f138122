import Freehal.Universal.Wildcards.Calls

/-!
# `matches` in its buffer

What a call computes, and that it comes to an end: exactly when the pattern that it scans fits.
-/

namespace Freehal.Universal

open Lib (Byte Block Fault inside loop)

variable {a b : Str} {stack : Stack} {fuel : Nat}

theorem loop_underscoreStep {P : Str} {rest : Fin 3 → Byte} (hP : P.length < 5120)
    (hfuel : P.length < fuel) :
    loop (underscoreStep a) fuel ⟨strncpy rest P, 0, 0, P.length, true⟩ =
      .ok (underscoreLoop a P.length [] none P) := by
  obtain ⟨r, hr, rfl⟩ := Lib.loop_total (Underscoring.steps (a := a) hP)
    ⟨[], none, @Underscoring.start _ rest hP, rfl⟩ (by simpa using hfuel)
  rw [hr, underscoreValue]
  simp

/-! ## In the buffer -/

/-- The pattern that the loop over the stars gets, if any, fits: the second text without its
leading stars, or the first one when the second holds no wildcard but leading ones. -/
def ScanFits (a b : Str) : Prop :=
  ('*' ∈ dropStars b → (∀ n, b ≠ List.replicate n '*' ++ a) → Fits (dropStars b)) ∧
    ('*' ∉ dropStars b → '_' ∉ dropUnderscores (dropStars b) → '*' ∈ dropStars a →
      Fits (dropStars a))

/-- The memory holds what the comparison of texts computes with. -/
theorem matchesIn_with {swapped : Str → Str → Bool} {least : Nat} (hb : b.length < 5120)
    (hleast : 5123 < least)
    (hstars : '*' ∈ dropStars b → (∀ n, b ≠ List.replicate n '*' ++ a) → Fits (dropStars b))
    (hswap : ∀ P, (End.plain P).Of a b → '*' ∈ a → ∀ fuel, least ≤ fuel →
      matchesIn stack fuel P a = .ok (swapped P a))
    (hfuel : least + b.length < fuel) :
    matchesIn stack fuel a b = .ok (matchesWith swapped a b) := by
  rw [matchesWith_ends]
  apply @matchesIn_by_end a b stack fuel (fun e r => r = .ok (endValue swapped a e)) least hb hfuel
  intro e left hof hleft
  cases e with
  | same => rfl
  | stars P =>
      obtain ⟨rfl, hmem, hall⟩ := hof
      have hlength := length_dropStars_le b
      exact loop_starStep (by omega) (hstars hmem hall) (by omega)
  | underscores P =>
      obtain ⟨rfl, -, -⟩ := hof
      have hlength := length_dropUnderscores_le (dropStars b)
      have hlength' := length_dropStars_le b
      exact loop_underscoreStep (by omega) (by omega)
  | plain P =>
      simp only [endCall, endValue]
      by_cases ha : '*' ∈ a
      · rw [if_pos ha, hswap P hof ha left hleft]
        simp [ha]
      · rw [if_neg ha]
        simp [ha]

/-- A call that stays in the buffer computes the comparison of texts. -/
theorem matchesIn_eq (ha : a.length < 5120) (hb : b.length < 5120) (hfits : ScanFits a b)
    (hfuel : 5125 + a.length + b.length < fuel) :
    matchesIn stack fuel a b = .ok (matchesText a b) := by
  refine matchesIn_with hb ?_ hfits.1 ?_ hfuel
  · omega
  · rintro P ⟨hP, hstar, hunderscore⟩ hmem left hleft
    have hnot : '*' ∉ P := fun h => hstar (mem_of_mem_dropUnderscores (hP ▸ h))
    refine matchesIn_with ha (Nat.lt_succ_self 5123) ?_ ?_ (by omega)
    · exact fun hmem _ => hfits.2 hstar (hP ▸ hunderscore) hmem
    · exact fun _ _ hin => absurd hin hnot

/-! ## Behind the buffer -/

/-- What a call is made with when nothing but zeros is behind its copy. -/
def zeros : Stack := fun _ _ _ => none

theorem matchesIn_never_stars (hb : b.length < 5120) (hstar : '*' ∈ dropStars b)
    (hall : ∀ n, b ≠ List.replicate n '*' ++ a) (hfits : ¬ Fits (dropStars b)) (fuel : Nat)
    (r : Bool) : matchesIn zeros fuel a b ≠ .ok r := by
  rcases @matchesIn_ends a b zeros hb fuel with ⟨hout, -⟩ | ⟨left, -, hcall⟩
  · simp [hout]
  · have hof := ends_of a b
    rw [hcall]
    generalize ends a b = e at hof
    cases e with
    | same =>
        rcases hof with ⟨n, heq⟩ | ⟨hnot, -⟩
        · exact absurd heq (hall n)
        · exact absurd hstar hnot
    | stars P =>
        obtain ⟨rfl, -, -⟩ := hof
        have hlength := length_dropStars_le b
        exact loop_starStep_never (by omega) hfits left r
    | underscores P => exact absurd hstar hof.2.1
    | plain P => exact absurd hstar hof.2.1

theorem matchesIn_never (ha : a.length < 5120) (hb : b.length < 5120) (hfits : ¬ ScanFits a b)
    (fuel : Nat) (r : Bool) : matchesIn zeros fuel a b ≠ .ok r := by
  by_cases hstar : '*' ∈ dropStars b
  · have hstars : (∀ n, b ≠ List.replicate n '*' ++ a) ∧ ¬ Fits (dropStars b) := by
      by_contra hnot
      refine hfits ⟨fun _ hall => by_contra fun h => hnot ⟨hall, h⟩, fun h => absurd hstar h⟩
    exact matchesIn_never_stars hb hstar hstars.1 hstars.2 fuel r
  · have hswap : '_' ∉ dropUnderscores (dropStars b) ∧ '*' ∈ dropStars a ∧ ¬ Fits (dropStars a) := by
      by_contra hnot
      refine hfits ⟨fun h => absurd h hstar, fun _ hunderscore hmem => ?_⟩
      exact by_contra fun h => hnot ⟨hunderscore, hmem, h⟩
    obtain ⟨hunderscore, hmem, hlong⟩ := hswap
    rcases @matchesIn_ends a b zeros hb fuel with ⟨hout, -⟩ | ⟨left, -, hcall⟩
    · simp [hout]
    · have hof := ends_of a b
      rw [hcall]
      generalize ends a b = e at hof
      cases e with
      | same =>
          rcases hof with ⟨n, rfl⟩ | ⟨-, hnot⟩
          · rw [dropStars_replicate] at hstar
            exact absurd hmem hstar
          · exact absurd (mem_of_mem_dropStars hmem) hnot
      | stars P => exact absurd (hof.1 ▸ hof.2.1) hstar
      | underscores P => exact absurd (hof.1 ▸ hof.2.2) hunderscore
      | plain P =>
          have hnot : '*' ∉ P := fun h => hstar (mem_of_mem_dropUnderscores (hof.1 ▸ h))
          simp only [endCall]
          rw [if_pos (mem_of_mem_dropStars hmem)]
          refine matchesIn_never_stars ha hmem ?_ hlong left r
          rintro n rfl
          rw [dropStars_replicate] at hmem
          exact hnot (mem_of_mem_dropStars hmem)

/-! ## Termination -/

theorem loop_underscoreStep_stops {P : Str} {rest : Fin 3 → Byte} (hP : P.length < 5120)
    (hfuel : P.length < fuel) :
    loop (underscoreStep a) fuel ⟨strncpy rest P, 0, 0, P.length, true⟩ ≠ .error .fuel := by
  rw [loop_underscoreStep hP hfuel]
  simp

theorem loop_starStep_stops {P : Str} {rest : Fin 3 → Byte} (hP : P.length < 5120)
    (hfuel : 5123 < fuel) :
    loop (starStep a) fuel ⟨strncpy rest P, 0, 0, P.length, false⟩ ≠ .error .fuel :=
  Lib.loop_stops starStep_stops (size_strncpy hP) (by simpa using hfuel)

theorem matchesIn_stops_with {least : Nat} (hb : b.length < 5120) (hleast : 5123 < least)
    (hswap : ∀ P, (End.plain P).Of a b → '*' ∈ a → ∀ fuel, least ≤ fuel →
      matchesIn stack fuel P a ≠ .error .fuel)
    (hfuel : least + b.length < fuel) : matchesIn stack fuel a b ≠ .error .fuel := by
  apply @matchesIn_by_end a b stack fuel (fun _ r => r ≠ .error .fuel) least hb hfuel
  intro e left hof hleft
  cases e with
  | same => simp [endCall]
  | stars P =>
      obtain ⟨rfl, -, -⟩ := hof
      have hlength := length_dropStars_le b
      exact loop_starStep_stops (by omega) (by omega)
  | underscores P =>
      obtain ⟨rfl, -, -⟩ := hof
      have hlength := length_dropUnderscores_le (dropStars b)
      have hlength' := length_dropStars_le b
      exact loop_underscoreStep_stops (by omega) (by omega)
  | plain P =>
      simp only [endCall]
      by_cases ha : '*' ∈ a
      · rw [if_pos ha]
        exact hswap P hof ha left hleft
      · rw [if_neg ha]
        simp

/-- `matches` comes to an end, in the buffer or where it leaves it. -/
theorem matchesIn_stops (ha : a.length < 5120) (hb : b.length < 5120)
    (hfuel : 5125 + a.length + b.length < fuel) : matchesIn stack fuel a b ≠ .error .fuel := by
  refine matchesIn_stops_with hb ?_ ?_ hfuel
  · omega
  · rintro P ⟨hP, hstar, -⟩ hmem left hleft
    have hnot : '*' ∉ P := fun h => hstar (mem_of_mem_dropUnderscores (hP ▸ h))
    refine matchesIn_stops_with ha (Nat.lt_succ_self 5123) ?_ (by omega)
    exact fun _ _ hin => absurd hin hnot

/-- `matches` always terminates, and it stays in its buffer, whatever was in it before, exactly
when the pattern that it scans and one byte for each star fit. -/
theorem matchesIn_inside_iff (ha : a.length < 5120) (hb : b.length < 5120) :
    (∀ stack, ∃ least, ∀ fuel, least ≤ fuel → matchesIn stack fuel a b ≠ .error .fuel) ∧
      ((∀ stack, ∃ fuel r, matchesIn stack fuel a b = .ok r) ↔ ScanFits a b) := by
  constructor
  · intro stack
    exact ⟨5126 + a.length + b.length, fun fuel hle => matchesIn_stops ha hb (by omega)⟩
  · constructor
    · intro h
      by_contra hfits
      obtain ⟨fuel, r, hr⟩ := h zeros
      exact matchesIn_never ha hb hfits fuel r hr
    · intro hfits stack
      exact ⟨_, _, matchesIn_eq ha hb hfits (Nat.lt_succ_self _)⟩

theorem matchesIn_inside_haus :
    (∀ stack, ∃ least, ∀ fuel, least ≤ fuel →
        matchesIn stack fuel "ein haus".toList "ein*haus".toList ≠ .error .fuel) ∧
      ((∀ stack, ∃ fuel r, matchesIn stack fuel "ein haus".toList "ein*haus".toList = .ok r) ↔
        ScanFits "ein haus".toList "ein*haus".toList) :=
  matchesIn_inside_iff (by decide) (by decide)

/-- A text and then three thousand stars. -/
def manyStars : Str := 'x' :: List.replicate 3000 '*'

/-- The end that the loop looks for is more than 700 bytes behind the buffer. -/
theorem manyStars_leaves_buffer :
    ¬ ∀ stack, ∃ fuel r, matchesIn stack fuel [] manyStars = .ok r := by
  intro h
  obtain ⟨fuel, r, hr⟩ := h zeros
  have hdrop : dropStars manyStars = manyStars := List.dropWhile_cons_of_neg (by decide)
  have hlength : manyStars.length = 3001 := by
    rw [manyStars, List.length_cons, List.length_replicate]
  have hcount : manyStars.count '*' = 3000 := by
    rw [manyStars, List.count_cons_of_ne (by decide), List.count_replicate_self]
  have hnot : ¬ Fits (dropStars manyStars) := by
    rw [hdrop, Fits, hlength, hcount]
    omega
  refine matchesIn_never_stars (by omega) ?_ ?_ hnot fuel r hr
  · rw [hdrop, ← List.count_pos_iff, hcount]
    omega
  · intro n heq
    have hhead : 'x' ∈ List.replicate n '*' ++ [] := by
      rw [← heq, manyStars]
      exact List.mem_cons_self
    rw [List.append_nil] at hhead
    exact absurd (List.eq_of_mem_replicate hhead) (by decide)

end Freehal.Universal
