import Freehal.Lib.Pieces
import Freehal.Universal.Match

/-!
# Splitting at a separator

`divide_by` moves the start of the next piece only behind a piece that is not empty. After an empty
one the separator itself is where the next piece starts.
-/

namespace Freehal.Universal

open Lib (pieces)

variable {sep : Char} {acc text : Str}

/-- The text does not begin with the separator and never holds two of them in a row. -/
def Separated (sep : Char) (text : Str) : Prop := ¬ [sep] <+: text ∧ ¬ [sep, sep] <:+: text

theorem divideFrom_separated (hacc : sep ∉ acc) (hhead : acc ≠ [] ∨ ¬ [sep] <+: text)
    (htext : ¬ [sep, sep] <:+: text) : divideFrom sep acc text = pieces sep (acc ++ text) := by
  induction text generalizing acc with
  | nil =>
      rw [divideFrom, List.append_nil]
      split
      · case isTrue hnil => rw [hnil, Lib.pieces_nil]
      · case isFalse hne => rw [Lib.pieces_of_not_mem hacc hne]
  | cons c text ih =>
      have hrest : ¬ [sep, sep] <:+: text := fun h => htext (h.trans (List.suffix_cons c text).isInfix)
      rw [divideFrom]
      by_cases hc : c = sep
      · subst hc
        have hne : acc ≠ [] := hhead.resolve_right fun h => h ⟨text, rfl⟩
        have hnext : ¬ [c] <+: text := fun h => htext (List.cons_prefix_cons.mpr ⟨rfl, h⟩).isInfix
        rw [if_neg (by simp), if_neg hne, ih (by simp) (Or.inr hnext) hrest, Lib.pieces_append_cons,
          Lib.pieces_of_not_mem hacc hne]
        rfl
      · have hacc' : sep ∉ acc ++ [c] := by simpa [hacc] using fun h : sep = c => hc h.symm
        rw [if_pos hc, ih hacc' (Or.inl (by simp)) hrest]
        simp

/-- A piece that was started with the separator is listed with it. -/
theorem exists_piece_of_mem (h : sep ∈ acc) (text : Str) :
    ∃ piece ∈ divideFrom sep acc text, sep ∈ piece := by
  have hne : acc ≠ [] := List.ne_nil_of_mem h
  induction text generalizing acc with
  | nil => exact ⟨acc, by simp [divideFrom, hne], h⟩
  | cons c text ih =>
      rw [divideFrom]
      by_cases hc : c = sep
      · rw [if_neg (by simpa using hc), if_neg hne]
        exact ⟨acc, by simp, h⟩
      · rw [if_pos hc]
        exact ih (by simp [h]) (by simp)

theorem exists_piece_of_not_separated
    (h : (acc = [] ∧ [sep] <+: text) ∨ [sep, sep] <:+: text) :
    ∃ piece ∈ divideFrom sep acc text, sep ∈ piece := by
  induction text generalizing acc with
  | nil => simp at h
  | cons c text ih =>
      rw [divideFrom]
      by_cases hc : c = sep
      · subst hc
        rw [if_neg (by simp)]
        by_cases hacc : acc = []
        · rw [if_pos hacc]
          exact exists_piece_of_mem (by simp) text
        · -- the second of two separators meets an empty piece
          have hrest : (([] : Str) = [] ∧ [c] <+: text) ∨ [c, c] <:+: text := by
            rcases List.infix_cons_iff.mp (h.resolve_left fun h => hacc h.1) with hpre | hinf
            · exact Or.inl ⟨rfl, (List.cons_prefix_cons.mp hpre).2⟩
            · exact Or.inr hinf
          obtain ⟨piece, hmem, hsep⟩ := ih hrest
          rw [if_neg hacc]
          exact ⟨piece, List.mem_cons_of_mem acc hmem, hsep⟩
      · rw [if_pos hc]
        apply ih
        right
        rcases h with ⟨-, hpre⟩ | hinf
        · exact absurd (List.cons_prefix_cons.mp hpre).1.symm hc
        · rcases List.infix_cons_iff.mp hinf with hpre | hinf
          · exact absurd (List.cons_prefix_cons.mp hpre).1.symm hc
          · exact hinf

theorem divideBy_separated (h : Separated sep text) : divideBy sep text = pieces sep text :=
  divideFrom_separated (by simp) (Or.inr h.1) h.2

theorem divideBy_eq_pieces (h : divideBy sep text = pieces sep text) : Separated sep text := by
  by_contra hnot
  have hor : (([] : Str) = [] ∧ [sep] <+: text) ∨ [sep, sep] <:+: text := by
    by_cases hpre : [sep] <+: text
    · exact Or.inl ⟨rfl, hpre⟩
    · exact Or.inr (by_contra fun hinf => hnot ⟨hpre, hinf⟩)
  obtain ⟨piece, hmem, hsep⟩ := exists_piece_of_not_separated hor
  have hpiece : piece ∈ pieces sep text := h ▸ hmem
  exact Lib.not_mem_of_mem_pieces hpiece hsep

/-- Without empty pieces the list is all that the separators leave. -/
theorem divideBy_eq_splitOn (h : ∀ piece ∈ text.splitOn sep, piece ≠ []) :
    divideBy sep text = text.splitOn sep := by
  have hhead : ∀ rest : Str, (sep :: rest).splitOn sep = [] :: rest.splitOn sep := by
    intro rest
    simpa using @List.splitOn_append_cons_self _ _ _ sep [] rest
  have hseparated : Separated sep text := by
    constructor
    · rintro ⟨rest, rfl⟩
      rw [List.singleton_append, hhead] at h
      exact h [] (by simp) rfl
    · rintro ⟨before, rest, rfl⟩
      rw [List.append_assoc, List.cons_append, List.singleton_append, List.splitOn_append_cons_self,
        hhead] at h
      exact h [] (by simp) rfl
  rw [divideBy_separated hseparated, Lib.pieces_eq_splitOn h]

/-! ## What the callers compare with -/

/-- The alternatives that a text with or without pipes stands for. -/
def alternatives (text : Str) : List Str := if '|' ∉ text then [text] else pieces '|' text

theorem matchesWithPipe_separated (h : Separated '|' text) (a : Str) :
    matchesWithPipe a text = (alternatives text).any (matchesText a) := by
  rw [matchesWithPipe, alternatives]
  split
  · simp
  · rw [divideBy_separated h]

theorem verbMatches_separated (h : Separated '|' text) (fact : Fact) :
    verbMatches fact ⟨text⟩ =
      (pieces '|' text).any fun piece => fact.verbs.any fun w => beginsWith w.name piece := by
  rw [verbMatches, divideBy_separated h]

/-- The pieces are right, and so is what the callers compare with, exactly for a text without a
leading or a repeated separator. -/
theorem divideBy_pieces_iff (sep : Char) (text : Str) :
    (divideBy sep text = pieces sep text ∧
        (sep = '|' → (∀ a, matchesWithPipe a text = (alternatives text).any (matchesText a)) ∧
          ∀ fact, verbMatches fact ⟨text⟩ =
            (pieces '|' text).any fun piece => fact.verbs.any fun w => beginsWith w.name piece)) ↔
      Separated sep text := by
  constructor
  · exact fun h => divideBy_eq_pieces h.1
  · intro h
    refine ⟨divideBy_separated h, ?_⟩
    rintro rfl
    exact ⟨matchesWithPipe_separated h, verbMatches_separated h⟩

/-- The first verb of the list keeps the pipe in front of it. -/
theorem divideBy_verbs_not_pieces :
    divideBy '|' "|ist|sind|".toList ≠ pieces '|' "|ist|sind|".toList := by decide

end Freehal.Universal
