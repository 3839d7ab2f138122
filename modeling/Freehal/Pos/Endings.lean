import Freehal.Lib.Text

/-!
# Rules for the ends of verbs

The regular expressions of `GermanTagger.toggle` that end with `$`. `back` is a word read from its
end on.
-/

namespace Freehal.Pos

/-! ## The rules -/

/-- What stands in front of the ending in the expression, from the ending on, and whether the
replacement keeps it. -/
structure EndRule where
  group : List (Char → Bool)
  ending : Str
  replacement : Str
  keepsGroup : Bool

def isTerminator (c : Char) : Bool :=
  c = '\n' || c = '\r' || c = Char.ofNat 0x85 || c = Char.ofNat 0x2028 || c = Char.ofNat 0x2029

/-- `.` -/
def isDot (c : Char) : Bool := !isTerminator c

/-- `[gdm]` -/
def isGdm (c : Char) : Bool := c = 'g' || c = 'd' || c = 'm'

/-- `[td]` -/
def isTd (c : Char) : Bool := c = 't' || c = 'd'

/-- In a replacement `\\1` is the digit, and only `$1` is the group. -/
def endRules : List EndRule :=
  [⟨[isGdm], "elst".toList, "1le".toList, false⟩, ⟨[isGdm], "le".toList, "1elst".toList, false⟩,
    ⟨[], "te".toList, "test".toList, false⟩, ⟨[], "test".toList, "te".toList, false⟩,
    ⟨[], "sst".toList, "sse".toList, false⟩, ⟨[], "est".toList, "e".toList, false⟩,
    ⟨[isDot, isDot], "st".toList, "e".toList, true⟩, ⟨[isTd], "e".toList, "1est".toList, false⟩,
    ⟨[], "e".toList, "st".toList, false⟩]

def matchesGroup : List (Char → Bool) → Str → Bool
  | [], _ => true
  | _ :: _, [] => false
  | p :: group, c :: back => p c && matchesGroup group back

def EndRule.matches (rule : EndRule) (back : Str) : Bool :=
  rule.ending.reverse.isPrefixOf back && matchesGroup rule.group (back.drop rule.ending.length)

/-- The word after the replacement, if the rule matches. -/
def EndRule.apply (rule : EndRule) (back : Str) : Option Str :=
  let rest := back.drop rule.ending.length
  if rule.matches back then
    some (rule.replacement.reverse ++
      if rule.keepsGroup then rest else rest.drop rule.group.length)
  else none

/-- What the first rule that matches does. -/
def rewriteEnd (back : Str) : Option Str := endRules.findSome? (·.apply back)

/-! ## What the rules do -/

/-- No `[gdm]` stands in front of an `l`. -/
def NoGdml (back : Str) : Prop := ¬ (['l'] <+: back ∧ matchesGroup [isGdm] (back.drop 1) = true)

/-- No `[gdm]` stands in front of an `el`. -/
def NoGdmel (back : Str) : Prop :=
  ¬ (['l', 'e'] <+: back ∧ matchesGroup [isGdm] (back.drop 2) = true)

/-- The replacements, from the first rule to the last one. -/
inductive Rewrites : Str → Str → Prop where
  | elst (x : Char) (s : Str) (hx : isGdm x = true) :
      Rewrites ('t' :: 's' :: 'l' :: 'e' :: x :: s) ('e' :: 'l' :: '1' :: s)
  | le (x : Char) (s : Str) (hx : isGdm x = true) :
      Rewrites ('e' :: 'l' :: x :: s) ('t' :: 's' :: 'l' :: 'e' :: '1' :: s)
  | te (s : Str) : Rewrites ('e' :: 't' :: s) ('t' :: 's' :: 'e' :: 't' :: s)
  | test (s : Str) : Rewrites ('t' :: 's' :: 'e' :: 't' :: s) ('e' :: 't' :: s)
  | sst (s : Str) : Rewrites ('t' :: 's' :: 's' :: s) ('e' :: 's' :: 's' :: s)
  | est (s : Str) (hs : ¬ ['t'] <+: s) : Rewrites ('t' :: 's' :: 'e' :: s) ('e' :: s)
  | st (s : Str) (hs : ¬ ['s'] <+: s ∧ ¬ ['e'] <+: s) (hl : NoGdmel s)
      (hd : matchesGroup [isDot, isDot] s = true) : Rewrites ('t' :: 's' :: s) ('e' :: s)
  | de (s : Str) : Rewrites ('e' :: 'd' :: s) ('t' :: 's' :: 'e' :: '1' :: s)
  | e (s : Str) (hs : ¬ ['t'] <+: s ∧ ¬ ['d'] <+: s) (hl : NoGdml s) :
      Rewrites ('e' :: s) ('t' :: 's' :: s)

theorem endRules_eq : endRules =
    [⟨[isGdm], ['e', 'l', 's', 't'], ['1', 'l', 'e'], false⟩,
      ⟨[isGdm], ['l', 'e'], ['1', 'e', 'l', 's', 't'], false⟩,
      ⟨[], ['t', 'e'], ['t', 'e', 's', 't'], false⟩, ⟨[], ['t', 'e', 's', 't'], ['t', 'e'], false⟩,
      ⟨[], ['s', 's', 't'], ['s', 's', 'e'], false⟩, ⟨[], ['e', 's', 't'], ['e'], false⟩,
      ⟨[isDot, isDot], ['s', 't'], ['e'], true⟩, ⟨[isTd], ['e'], ['1', 'e', 's', 't'], false⟩,
      ⟨[], ['e'], ['s', 't'], false⟩] := rfl

theorem rewriteEnd_of_rewrites {back back' : Str} (h : Rewrites back back') :
    rewriteEnd back = some back' := by
  rw [rewriteEnd, endRules_eq]
  simp only [List.findSome?_cons, EndRule.apply, EndRule.matches]
  cases h with
  | elst x s hx => simp [matchesGroup, hx]
  | le x s hx => simp [matchesGroup, hx]
  | te s => simp [matchesGroup]
  | test s => simp [matchesGroup]
  | sst s => simp [matchesGroup]
  | est s hs => simp [matchesGroup, hs]
  | st s hs hl hd =>
      have hl' : ¬ (['l', 'e'] <+: s ∧ matchesGroup [isGdm] (s.drop 2) = true) := hl
      have ht : ¬ ['e', 't'] <+: s := fun h => hs.2 (List.IsPrefix.trans ⟨['t'], rfl⟩ h)
      simp [hl', hs, hd, ht]
  | de s => simp [matchesGroup, isTd]
  | e s hs hl =>
      have ht : matchesGroup [isTd] s = false := by
        cases s with
        | nil => rfl
        | cons y s =>
            have hy : 't' ≠ y ∧ 'd' ≠ y := by simpa using hs
            simp [matchesGroup, isTd, hy.1.symm, hy.2.symm]
      have hl' : ¬ (['l'] <+: s ∧ matchesGroup [isGdm] (List.tail s) = true) := by
        simpa [NoGdml] using hl
      simp [hl', hs.1, ht, matchesGroup]

theorem exists_rewrites_e (s : Str) : ∃ back', Rewrites ('e' :: s) back' := by
  by_cases hs : ¬ ['t'] <+: s ∧ ¬ ['d'] <+: s
  · by_cases hl : NoGdml s
    · exact ⟨_, .e s hs hl⟩
    · obtain ⟨⟨r, rfl⟩, hg⟩ := not_not.mp hl
      cases r with
      | nil => cases hg
      | cons x r => exact ⟨_, .le x r (by simpa [matchesGroup] using hg)⟩
  · rw [← not_or, not_not] at hs
    obtain ⟨r, rfl⟩ | ⟨r, rfl⟩ := hs
    · exact ⟨_, .te r⟩
    · exact ⟨_, .de r⟩

/-- Either two characters that `.` matches stand in front of `st`, or no rule matches. -/
theorem exists_rewrites_st (s : Str) :
    (∃ back', Rewrites ('t' :: 's' :: s) back') ∨ rewriteEnd ('t' :: 's' :: s) = none := by
  by_cases hss : ['s'] <+: s
  · obtain ⟨r, rfl⟩ := hss
    exact .inl ⟨_, .sst r⟩
  by_cases he : ['e'] <+: s
  · obtain ⟨r, rfl⟩ := he
    by_cases ht : ['t'] <+: r
    · obtain ⟨r, rfl⟩ := ht
      exact .inl ⟨_, .test r⟩
    · exact .inl ⟨_, .est r ht⟩
  by_cases hl : NoGdmel s
  · by_cases hd : matchesGroup [isDot, isDot] s = true
    · exact .inl ⟨_, .st s ⟨hss, he⟩ hl hd⟩
    · refine .inr ?_
      rw [rewriteEnd, endRules_eq]
      have hl' : ¬ (['l', 'e'] <+: s ∧ matchesGroup [isGdm] (s.drop 2) = true) := hl
      have ht : ¬ ['e', 't'] <+: s := fun h => he (List.IsPrefix.trans ⟨['t'], rfl⟩ h)
      simp [EndRule.apply, EndRule.matches, hl', hss, he, hd, ht]
  · obtain ⟨⟨r, rfl⟩, hg⟩ := not_not.mp hl
    cases r with
    | nil => cases hg
    | cons x r => exact .inl ⟨_, .elst x r (by simpa [matchesGroup] using hg)⟩

theorem rewriteEnd_of_notEnding {back : Str} (he : ¬ ['e'] <+: back) (ht : ¬ ['t', 's'] <+: back) :
    rewriteEnd back = none := by
  rw [rewriteEnd, List.findSome?_eq_none_iff]
  intro rule hr
  have hend : ['e'] <+: rule.ending.reverse ∨ ['t', 's'] <+: rule.ending.reverse := by
    revert rule
    decide
  have hm : rule.matches back = false := by
    rw [EndRule.matches, Bool.and_eq_false_iff, ← Bool.not_eq_true, List.isPrefixOf_iff_prefix]
    exact .inl fun hp => hend.elim (he <| ·.trans hp) (ht <| ·.trans hp)
  simp [EndRule.apply, hm]

theorem rewriteEnd_eq_some {back back' : Str} :
    rewriteEnd back = some back' ↔ Rewrites back back' := by
  refine ⟨fun h => ?_, rewriteEnd_of_rewrites⟩
  have hex : (∃ b, Rewrites back b) ∨ rewriteEnd back = none := by
    by_cases he : ['e'] <+: back
    · obtain ⟨s, rfl⟩ := he
      exact .inl (exists_rewrites_e s)
    by_cases ht : ['t', 's'] <+: back
    · obtain ⟨s, rfl⟩ := ht
      exact exists_rewrites_st s
    exact .inr (rewriteEnd_of_notEnding he ht)
  rcases hex with ⟨b, hb⟩ | hn
  · rw [rewriteEnd_of_rewrites hb, Option.some.injEq] at h
    exact h ▸ hb
  · rw [hn] at h
    cases h

/-! ## The pairs that are exchanged -/

/-- A stem with which `st` and `e` are endings of one verb. -/
structure Regular (stem : Str) : Prop where
  dots : matchesGroup [isDot, isDot] stem = true
  notSE : ¬ ['s'] <+: stem ∧ ¬ ['e'] <+: stem
  notTD : ¬ ['t'] <+: stem ∧ ¬ ['d'] <+: stem
  noGdml : NoGdml stem
  noGdmel : NoGdmel stem

/-- The pairs whose members are rewritten into each other. -/
inductive Swaps : Str → Str → Prop where
  | te (s : Str) : Swaps ('e' :: 't' :: s) ('t' :: 's' :: 'e' :: 't' :: s)
  | test (s : Str) : Swaps ('t' :: 's' :: 'e' :: 't' :: s) ('e' :: 't' :: s)
  | st (s : Str) (hs : Regular s) : Swaps ('t' :: 's' :: s) ('e' :: s)
  | e (s : Str) (hs : Regular s) : Swaps ('e' :: s) ('t' :: 's' :: s)

theorem Swaps.symm {back back' : Str} (h : Swaps back back') : Swaps back' back := by
  cases h with
  | te s => exact .test s
  | test s => exact .te s
  | st s hs => exact .e s hs
  | e s hs => exact .st s hs

theorem Swaps.rewrites {back back' : Str} (h : Swaps back back') : Rewrites back back' := by
  cases h with
  | te s => exact .te s
  | test s => exact .test s
  | st s hs => exact .st s hs.notSE hs.noGdmel hs.dots
  | e s hs => exact .e s hs.notTD hs.noGdml

theorem isGdm_one : isGdm '1' = false := rfl

theorem st_of_rewrites {s c c' : Str} (h : Rewrites c c') (hc : c = 't' :: 's' :: s)
    (hc' : c' = 'e' :: s) :
    matchesGroup [isDot, isDot] s = true ∧ (¬ ['s'] <+: s ∧ ¬ ['e'] <+: s) ∧ NoGdmel s := by
  have hn := congrArg List.length hc
  have hn' := congrArg List.length hc'
  cases h <;> grind

theorem e_of_rewrites {s c c' : Str} (h : Rewrites c c') (hc : c = 'e' :: s)
    (hc' : c' = 't' :: 's' :: s) : (¬ ['t'] <+: s ∧ ¬ ['d'] <+: s) ∧ NoGdml s := by
  have hn := congrArg List.length hc
  have hn' := congrArg List.length hc'
  cases h <;> grind

theorem swaps_of_rewrites {back back' c c' : Str} (h : Rewrites back back') (h' : Rewrites c c')
    (hc : c = back') (hc' : c' = back) : Swaps back back' := by
  -- Where the ends agree, the lengths or the characters in front of them do not.
  have hn := congrArg List.length hc
  have hn' := congrArg List.length hc'
  cases h with
  | elst x s hx => cases h' <;> grind [isGdm_one]
  | le x s hx => cases h' <;> grind [isGdm_one]
  | te s => exact .te s
  | test s => exact .test s
  | sst s => cases h' <;> grind
  | est s hs => cases h' <;> grind
  | st s hs hl hd =>
      obtain ⟨hs', hl'⟩ := e_of_rewrites h' hc hc'
      exact .st s ⟨hd, hs, hs', hl', hl⟩
  | de s => cases h' <;> grind
  | e s hs hl =>
      obtain ⟨hd, hs', hl'⟩ := st_of_rewrites h' hc hc'
      exact .e s ⟨hd, hs', hs, hl, hl'⟩

theorem ne_t_of_isGdm {x : Char} (h : isGdm x = true) : x ≠ 't' := by
  rintro rfl
  cases h

/-- Every rule takes a `t` away or adds one. -/
theorem Rewrites.count_ne {back back' : Str} (h : Rewrites back back') :
    back'.count 't' ≠ back.count 't' := by
  cases h with
  | elst x s hx => simp [ne_t_of_isGdm hx]
  | le x s hx => simp [ne_t_of_isGdm hx]
  | _ => simp

/-- The word ends with a letter again. -/
theorem Rewrites.isDot_head {back back' : Str} (h : Rewrites back back') :
    ∃ c s, back' = c :: s ∧ isDot c = true := by
  cases h <;> exact ⟨_, _, rfl, rfl⟩

end Freehal.Pos
