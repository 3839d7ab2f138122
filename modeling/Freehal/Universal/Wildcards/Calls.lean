import Freehal.Universal.Wildcards.Stars
import Freehal.Universal.Wildcards.Underscores

/-!
# The calls of `matches`

A call passes on a shorter pattern, or the texts exchanged when only the first one holds a star.
-/

namespace Freehal.Universal

open Lib (Byte Block Fault inside loop)

variable {a b : Str} {stack : Stack} {fuel : Nat}

/-! ## One call -/

theorem read_strncpy_head {P : Str} {rest : Fin 3 → Byte} (h : P.length < 5120) :
    (strncpy rest P).read 0 = some P.head? := by
  have hread := @read_strncpy P rest 0 h (by omega)
  rwa [← List.head?_eq_getElem?] at hread

theorem matchesIn_same : matchesIn stack (fuel + 1) a a = .ok true := by
  rw [matchesIn, if_pos rfl]

/-- A star in front is dropped. -/
theorem matchesIn_star (hb : ('*' :: b).length < 5120) (hne : a ≠ '*' :: b) :
    matchesIn stack (fuel + 1) a ('*' :: b) = matchesIn stack fuel a b := by
  have htext : (strncpy (stack a ('*' :: b)) ('*' :: b)).text 1 = some b :=
    text_strncpy hb (by simp)
  rw [matchesIn, if_neg hne, if_pos (by simp)]
  simp only [read_strncpy_head hb, Lib.inside_some, Lib.ok_bind, List.head?_cons, if_true, htext]

/-- A star elsewhere is looked for by the loop. -/
theorem matchesIn_stars (hb : b.length < 5120) (hne : a ≠ b) (hstar : '*' ∈ b)
    (hhead : b.head? ≠ some '*') : matchesIn stack (fuel + 1) a b =
      loop (starStep a) fuel ⟨strncpy (stack a b) b, 0, 0, b.length, false⟩ := by
  have htext : (strncpy (stack a b) b).text 0 = some b := text_strncpy hb (Nat.zero_le _)
  rw [matchesIn, if_neg hne, if_pos hstar]
  simp only [read_strncpy_head hb, Lib.inside_some, Lib.ok_bind, if_neg hhead, htext, if_pos hstar]

theorem matchesIn_underscore (hb : ('_' :: b).length < 5120) (hne : a ≠ '_' :: b)
    (hstar : '*' ∉ b) : matchesIn stack (fuel + 1) a ('_' :: b) = matchesIn stack fuel a b := by
  have htext : (strncpy (stack a ('_' :: b)) ('_' :: b)).text 1 = some b :=
    text_strncpy hb (by simp)
  rw [matchesIn, if_neg hne, if_neg (by simpa using hstar), if_pos (by simp)]
  simp only [read_strncpy_head hb, Lib.inside_some, Lib.ok_bind, List.head?_cons, if_true, htext]

theorem matchesIn_underscores (hb : b.length < 5120) (hne : a ≠ b) (hstar : '*' ∉ b)
    (hunderscore : '_' ∈ b) (hhead : b.head? ≠ some '_') : matchesIn stack (fuel + 1) a b =
      loop (underscoreStep a) fuel ⟨strncpy (stack a b) b, 0, 0, b.length, true⟩ := by
  have htext : (strncpy (stack a b) b).text 0 = some b := text_strncpy hb (Nat.zero_le _)
  rw [matchesIn, if_neg hne, if_neg hstar, if_pos hunderscore]
  simp only [read_strncpy_head hb, Lib.inside_some, Lib.ok_bind, if_neg hhead, htext,
    if_pos hunderscore]

/-- Without wildcards in the second text the texts are exchanged, or they do not match. -/
theorem matchesIn_plain (hne : a ≠ b) (hstar : '*' ∉ b) (hunderscore : '_' ∉ b) :
    matchesIn stack (fuel + 1) a b = if '*' ∈ a then matchesIn stack fuel b a else .ok false := by
  rw [matchesIn, if_neg hne, if_neg hstar, if_neg hunderscore]

/-! ## Where the calls lead -/

/-- The first call that does not pass on a shorter pattern. -/
inductive End where
  | same
  | stars (pattern : Str)
  | underscores (pattern : Str)
  | plain (pattern : Str)

def ends (a : Str) : Str → End
  | [] => if a = [] then .same else .plain []
  | ch :: b =>
      if a = ch :: b then .same
      else if '*' ∈ ch :: b then if ch = '*' then ends a b else .stars (ch :: b)
      else if '_' ∈ ch :: b then if ch = '_' then ends a b else .underscores (ch :: b)
      else .plain (ch :: b)

/-- What that call does. -/
def endCall (stack : Stack) (fuel : Nat) (a : Str) : End → Except Fault Bool
  | .same => .ok true
  | .stars P => loop (starStep a) fuel ⟨strncpy (stack a P) P, 0, 0, P.length, false⟩
  | .underscores P => loop (underscoreStep a) fuel ⟨strncpy (stack a P) P, 0, 0, P.length, true⟩
  | .plain P => if '*' ∈ a then matchesIn stack fuel P a else .ok false

/-- What the comparison of texts computes there. -/
def endValue (swapped : Str → Str → Bool) (a : Str) : End → Bool
  | .same => true
  | .stars P => starLoop a [] P.length P
  | .underscores P => underscoreLoop a P.length [] none P
  | .plain P => '*' ∈ a && swapped P a

/-- The fuel is used up on the way, or the call at the end has what is left of it. -/
theorem matchesIn_ends (hb : b.length < 5120) (fuel : Nat) :
    (matchesIn stack fuel a b = .error .fuel ∧ fuel ≤ b.length) ∨
      ∃ left, fuel ≤ left + b.length + 1 ∧
        matchesIn stack fuel a b = endCall stack left a (ends a b) := by
  induction b generalizing fuel with
  | nil =>
      cases fuel with
      | zero => exact Or.inl ⟨rfl, Nat.zero_le _⟩
      | succ fuel =>
          refine Or.inr ⟨fuel, by simp, ?_⟩
          by_cases ha : a = []
          · rw [ha, matchesIn_same, ends, if_pos rfl, endCall]
          · rw [matchesIn_plain ha (by simp) (by simp), ends, if_neg ha, endCall]
  | cons ch b ih =>
      have hb' : b.length < 5120 := Nat.lt_of_succ_lt hb
      have hpass : ∀ fuel, matchesIn stack (fuel + 1) a (ch :: b) = matchesIn stack fuel a b →
          ends a (ch :: b) = ends a b →
          (matchesIn stack (fuel + 1) a (ch :: b) = .error .fuel ∧ fuel + 1 ≤ (ch :: b).length) ∨
            ∃ left, fuel + 1 ≤ left + (ch :: b).length + 1 ∧
              matchesIn stack (fuel + 1) a (ch :: b) = endCall stack left a (ends a (ch :: b)) := by
        intro fuel hcall hends
        rw [hcall, hends, List.length_cons]
        rcases ih hb' fuel with ⟨hfuel, hle⟩ | ⟨left, hle, hend⟩
        · exact Or.inl ⟨hfuel, by omega⟩
        · exact Or.inr ⟨left, by omega, hend⟩
      cases fuel with
      | zero => exact Or.inl ⟨rfl, Nat.zero_le _⟩
      | succ fuel =>
          have hleft : fuel + 1 ≤ fuel + (ch :: b).length + 1 := by simp
          by_cases hne : a = ch :: b
          · refine Or.inr ⟨fuel, hleft, ?_⟩
            rw [hne, matchesIn_same, ends, if_pos rfl, endCall]
          · by_cases hstar : '*' ∈ ch :: b
            · by_cases hch : ch = '*'
              · subst hch
                exact hpass fuel (matchesIn_star hb hne)
                  (by rw [ends, if_neg hne, if_pos hstar, if_pos rfl])
              · refine Or.inr ⟨fuel, hleft, ?_⟩
                rw [matchesIn_stars hb hne hstar (by simpa using hch), ends, if_neg hne,
                  if_pos hstar, if_neg hch, endCall]
            · by_cases hunderscore : '_' ∈ ch :: b
              · by_cases hch : ch = '_'
                · subst hch
                  exact hpass fuel (matchesIn_underscore hb hne (by simpa using hstar))
                    (by rw [ends, if_neg hne, if_neg hstar, if_pos hunderscore, if_pos rfl])
                · refine Or.inr ⟨fuel, hleft, ?_⟩
                  rw [matchesIn_underscores hb hne hstar hunderscore (by simpa using hch), ends,
                    if_neg hne, if_neg hstar, if_pos hunderscore, if_neg hch, endCall]
              · refine Or.inr ⟨fuel, hleft, ?_⟩
                rw [matchesIn_plain hne hstar hunderscore, ends, if_neg hne, if_neg hstar,
                  if_neg hunderscore, endCall]

/-- The comparison of texts takes the same way. -/
theorem matchesWith_ends (swapped : Str → Str → Bool) (a b : Str) :
    matchesWith swapped a b = endValue swapped a (ends a b) := by
  induction b with
  | nil =>
      rw [matchesWith, ends]
      by_cases ha : a = []
      · simp [ha, endValue]
      · simp [ha, endValue]
  | cons ch b ih =>
      rw [matchesWith, ends]
      by_cases hne : a = ch :: b
      · simp [hne, endValue]
      · rw [if_neg hne, if_neg hne]
        by_cases hstar : '*' ∈ ch :: b
        · rw [if_pos hstar, if_pos hstar]
          by_cases hch : ch = '*'
          · rw [if_pos hch, if_pos hch, ih]
          · rw [if_neg hch, if_neg hch]
            rfl
        · rw [if_neg hstar, if_neg hstar]
          by_cases hunderscore : '_' ∈ ch :: b
          · rw [if_pos hunderscore, if_pos hunderscore]
            by_cases hch : ch = '_'
            · rw [if_pos hch, if_pos hch, ih]
            · rw [if_neg hch, if_neg hch]
              rfl
          · rw [if_neg hunderscore, if_neg hunderscore]
            rfl

/-! ## The pattern at the end -/

def dropStars (text : Str) : Str := text.dropWhile (· = '*')

def dropUnderscores (text : Str) : Str := text.dropWhile (· = '_')

theorem dropWhile_of_not_mem {c : Char} {text : Str} (h : c ∉ text) :
    text.dropWhile (· = c) = text := by
  cases text with
  | nil => rfl
  | cons d text =>
      rw [List.dropWhile_cons_of_neg]
      simpa using fun hd : d = c => h (by simp [hd])

theorem dropStars_cons (text : Str) : dropStars ('*' :: text) = dropStars text :=
  List.dropWhile_cons_of_pos (by simp)

theorem dropStars_replicate (n : Nat) (text : Str) :
    dropStars (List.replicate n '*' ++ text) = dropStars text := by
  induction n with
  | zero => rfl
  | succ n ih => rw [List.replicate_succ, List.cons_append, dropStars_cons, ih]

theorem mem_of_mem_dropStars {c : Char} {text : Str} (h : c ∈ dropStars text) : c ∈ text :=
  (List.dropWhile_suffix _).subset h

theorem mem_of_mem_dropUnderscores {c : Char} {text : Str} (h : c ∈ dropUnderscores text) :
    c ∈ text :=
  (List.dropWhile_suffix _).subset h

theorem length_dropStars_le (text : Str) : (dropStars text).length ≤ text.length :=
  (List.dropWhile_suffix _).length_le

theorem length_dropUnderscores_le (text : Str) : (dropUnderscores text).length ≤ text.length :=
  (List.dropWhile_suffix _).length_le

/-- What the call at the end is made with. -/
def End.Of (a b : Str) : End → Prop
  | .same => (∃ n, b = List.replicate n '*' ++ a) ∨ '*' ∉ dropStars b ∧ '*' ∉ a
  | .stars P => P = dropStars b ∧ '*' ∈ P ∧ ∀ n, b ≠ List.replicate n '*' ++ a
  | .underscores P => P = dropUnderscores (dropStars b) ∧ '*' ∉ dropStars b ∧ '_' ∈ P
  | .plain P => P = dropUnderscores (dropStars b) ∧ '*' ∉ dropStars b ∧ '_' ∉ P

theorem End.Of.star {e : End} (hne : a ≠ '*' :: b) (h : e.Of a b) : e.Of a ('*' :: b) := by
  cases e with
  | same =>
      rcases h with ⟨n, rfl⟩ | h
      · exact Or.inl ⟨n + 1, rfl⟩
      · exact Or.inr (by rwa [dropStars_cons])
  | stars P =>
      obtain ⟨hP, hmem, hall⟩ := h
      refine ⟨by rw [hP, dropStars_cons], hmem, ?_⟩
      intro n heq
      cases n with
      | zero => exact hne heq.symm
      | succ n => exact hall n (List.cons.inj heq).2
  | underscores P => simpa only [End.Of, dropStars_cons] using h
  | plain P => simpa only [End.Of, dropStars_cons] using h

theorem End.Of.underscore {e : End} (hstar : '*' ∉ b) (h : e.Of a b) : e.Of a ('_' :: b) := by
  have hb : dropStars b = b := dropWhile_of_not_mem hstar
  have hcons : dropStars ('_' :: b) = '_' :: b := dropWhile_of_not_mem (by simpa using hstar)
  have hdrop : dropUnderscores ('_' :: b) = dropUnderscores b :=
    List.dropWhile_cons_of_pos (by simp)
  have hnot : '*' ∉ '_' :: b := by simpa using hstar
  cases e with
  | same =>
      rcases h with ⟨n, rfl⟩ | ⟨-, ha⟩
      · exact Or.inr ⟨by rwa [hcons], fun ha => hstar (by simp [ha])⟩
      · exact Or.inr ⟨by rwa [hcons], ha⟩
  | stars P =>
      obtain ⟨rfl, hmem, -⟩ := h
      exact absurd (mem_of_mem_dropStars hmem) hstar
  | underscores P => exact ⟨by rw [h.1, hcons, hdrop, hb], by rwa [hcons], h.2.2⟩
  | plain P => exact ⟨by rw [h.1, hcons, hdrop, hb], by rwa [hcons], h.2.2⟩

theorem ends_of (a b : Str) : (ends a b).Of a b := by
  induction b with
  | nil =>
      rw [ends]
      by_cases ha : a = []
      · rw [if_pos ha]
        exact Or.inl ⟨0, by simp [ha]⟩
      · rw [if_neg ha]
        simp [End.Of, dropStars, dropUnderscores]
  | cons ch b ih =>
      rw [ends]
      by_cases hne : a = ch :: b
      · rw [if_pos hne]
        exact Or.inl ⟨0, by simp [hne]⟩
      · rw [if_neg hne]
        by_cases hstar : '*' ∈ ch :: b
        · rw [if_pos hstar]
          by_cases hch : ch = '*'
          · subst hch
            rw [if_pos rfl]
            exact ih.star hne
          · have hdrop : dropStars (ch :: b) = ch :: b :=
              List.dropWhile_cons_of_neg (by simpa using hch)
            rw [if_neg hch]
            refine ⟨hdrop.symm, hstar, ?_⟩
            intro n heq
            cases n with
            | zero => exact hne heq.symm
            | succ n => exact hch (List.cons.inj heq).1
        · have hdrop : dropStars (ch :: b) = ch :: b := dropWhile_of_not_mem hstar
          rw [if_neg hstar]
          by_cases hunderscore : '_' ∈ ch :: b
          · rw [if_pos hunderscore]
            by_cases hch : ch = '_'
            · subst hch
              rw [if_pos rfl]
              exact ih.underscore fun hmem => hstar (List.mem_cons_of_mem _ hmem)
            · have hdrop' : dropUnderscores (ch :: b) = ch :: b :=
                List.dropWhile_cons_of_neg (by simpa using hch)
              rw [if_neg hch]
              exact ⟨by rw [hdrop, hdrop'], by rwa [hdrop], hunderscore⟩
          · rw [if_neg hunderscore]
            have hdrop' : dropUnderscores (ch :: b) = ch :: b := dropWhile_of_not_mem hunderscore
            exact ⟨by rw [hdrop, hdrop'], by rwa [hdrop], hunderscore⟩

/-- What holds of every call at the end holds of the first call, if the fuel lasts so long. -/
theorem matchesIn_by_end {Q : End → Except Fault Bool → Prop} {least : Nat} (hb : b.length < 5120)
    (hfuel : least + b.length < fuel)
    (h : ∀ e left, e.Of a b → least ≤ left → Q e (endCall stack left a e)) :
    Q (ends a b) (matchesIn stack fuel a b) := by
  rcases @matchesIn_ends a b stack hb fuel with ⟨-, hle⟩ | ⟨left, hle, hcall⟩
  · omega
  · rw [hcall]
    exact h _ left (ends_of a b) (by omega)

end Freehal.Universal
