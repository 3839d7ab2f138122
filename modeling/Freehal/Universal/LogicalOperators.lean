import Mathlib.Data.List.DropRight
import Freehal.Lib.Lists
import Freehal.Universal.Splitting

/-!
# Logical operators

`divide_by_logical_operators` multiplies an expression out: one text for each choice of an
alternative from every group. The array and its texts are as large as they have to be.
-/

namespace Freehal.Universal

open Lib (pieces choose foldl_choose_perm)

variable {exp text old alternative : Str}

/-- The two loops that drop the blanks at the ends. -/
def dropBlanks (text : Str) : Str := (text.dropWhile (· = ' ')).rdropWhile (· = ' ')

/-- One entry of `divided`: the result so far and one alternative of the group. -/
def conjoin (old alternative : Str) : Str :=
  dropBlanks <|
    if 1 ≤ old.length ∧ 1 ≤ alternative.length then old ++ " & ".toList ++ alternative
    else if 1 ≤ old.length then old
    else alternative

/-- The loops over `q` and `k` for one group. -/
def multiply (dividedOld : List Str) (group : Str) : List Str :=
  (divideBy '|' group).flatMap fun alternative => dividedOld.map fun old => conjoin old alternative

def divideByLogicalOperators (exp : Str) : List Str := (divideBy '&' exp).foldl multiply [[]]

/-! ## Reading a result -/

/-- No group and no alternative is empty. -/
def NoEmptyPart (exp : Str) : Prop :=
  ∀ group ∈ exp.splitOn '&', group ≠ [] ∧ ∀ alternative ∈ group.splitOn '|', alternative ≠ []

/-- A text without its `&` signs, as the words between its blanks. -/
def plainWords (text : Str) : List Str := pieces ' ' (text.filter (· ≠ '&'))

theorem plainWords_dropWhile (text : Str) :
    plainWords (text.dropWhile (· = ' ')) = plainWords text := by
  induction text with
  | nil => rfl
  | cons c text ih =>
      by_cases hc : c = ' '
      · rw [List.dropWhile_cons_of_pos (by simpa using hc), ih, hc]
        exact (Lib.pieces_cons _).symm
      · rw [List.dropWhile_cons_of_neg (by simpa using hc)]

theorem plainWords_rdropWhile (text : Str) :
    plainWords (text.rdropWhile (· = ' ')) = plainWords text := by
  induction text using List.reverseRecOn with
  | nil => rfl
  | append_singleton text c ih =>
      by_cases hc : c = ' '
      · rw [List.rdropWhile_concat_pos _ _ _ (by simpa using hc), ih, hc, plainWords, plainWords,
          List.filter_append]
        exact (Lib.pieces_concat _).symm
      · rw [List.rdropWhile_concat_neg _ _ _ (by simpa using hc)]

theorem plainWords_dropBlanks (text : Str) : plainWords (dropBlanks text) = plainWords text := by
  rw [dropBlanks, plainWords_rdropWhile, plainWords_dropWhile]

theorem plainWords_of_not_mem (h : '&' ∉ text) : plainWords text = pieces ' ' text := by
  rw [plainWords, List.filter_eq_self.mpr]
  intro c hc
  simpa using fun heq : c = '&' => h (heq ▸ hc)

theorem plainWords_and (old alternative : Str) :
    plainWords (old ++ " & ".toList ++ alternative) = plainWords old ++ plainWords alternative := by
  have hfilter : (old ++ " & ".toList ++ alternative).filter (· ≠ '&') =
      old.filter (· ≠ '&') ++ ' ' :: ' ' :: alternative.filter (· ≠ '&') := by
    simp
  rw [plainWords, hfilter, Lib.pieces_append_cons, Lib.pieces_cons]
  rfl

theorem plainWords_conjoin (h : '&' ∉ alternative) (old : Str) :
    plainWords (conjoin old alternative) = plainWords old ++ pieces ' ' alternative := by
  rw [conjoin, plainWords_dropBlanks, ← plainWords_of_not_mem h]
  split
  · exact plainWords_and old alternative
  · case isFalse hboth =>
      by_cases hold : 1 ≤ old.length
      · have halternative : alternative = [] := by
          rw [← List.length_eq_zero_iff]
          by_contra hne
          exact hboth ⟨hold, by omega⟩
        rw [if_pos hold, halternative]
        simp [plainWords]
      · have hnil : old = [] := by
          rw [← List.length_eq_zero_iff]
          omega
        rw [if_neg hold, hnil]
        simp [plainWords]

/-! ## The choices -/

/-- A result says what was chosen. -/
def Says (choice : List Str) (text : Str) : Prop := plainWords text = choice.flatMap (pieces ' ')

theorem says_conjoin {choice : List Str} (h : Says choice old) (halternative : '&' ∉ alternative) :
    Says (choice ++ [alternative]) (conjoin old alternative) := by
  rw [Says, plainWords_conjoin halternative, h]
  simp

/-- One group: each alternative behind each choice so far. -/
theorem says_choose {choices : List (List Str)} {divided : List Str}
    (h : List.Forall₂ Says choices divided) (alternatives : List Str)
    (halternatives : ∀ alternative ∈ alternatives, '&' ∉ alternative) :
    List.Forall₂ Says (choose choices alternatives)
      (alternatives.flatMap fun alternative => divided.map fun old => conjoin old alternative) := by
  induction alternatives with
  | nil => exact List.Forall₂.nil
  | cons alternative alternatives ih =>
      have hhead : List.Forall₂ Says (choices.map (· ++ [alternative]))
          (divided.map fun old => conjoin old alternative) := by
        rw [List.forall₂_map_left_iff, List.forall₂_map_right_iff]
        exact h.imp fun _ _ hsays => says_conjoin hsays (halternatives alternative (by simp))
      have hrest := ih fun alternative' hmem => halternatives alternative' (by simp [hmem])
      exact List.rel_append hhead hrest

/-- The groups, one after another. -/
theorem says_foldl {choices : List (List Str)} {divided : List Str} (groups : List Str)
    (hgroups : ∀ group ∈ groups, '&' ∉ group ∧ divideBy '|' group = group.splitOn '|')
    (h : List.Forall₂ Says choices divided) :
    List.Forall₂ Says ((groups.map (·.splitOn '|')).foldl choose choices)
      (groups.foldl multiply divided) := by
  induction groups generalizing choices divided with
  | nil => exact h
  | cons group groups ih =>
      obtain ⟨hand, hdivide⟩ := hgroups group (by simp)
      have halternatives : ∀ alternative ∈ group.splitOn '|', '&' ∉ alternative :=
        fun alternative hmem hin => hand (Lib.mem_of_mem_splitOn hmem hin)
      have hstep := says_choose h (group.splitOn '|') halternatives
      rw [← hdivide] at hstep
      rw [List.map_cons, List.foldl_cons, List.foldl_cons]
      exact ih (fun group' hmem => hgroups group' (by simp [hmem])) (hdivide ▸ hstep)

end Freehal.Universal
