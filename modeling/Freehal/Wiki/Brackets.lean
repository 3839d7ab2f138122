import Freehal.Lib.Brackets
import Freehal.Wiki.Sentences

/-!
# What removing brackets keeps

`remove_between` keeps a character when its counter is zero. The counter is the surplus of starts,
so that a stray stop leaves it below zero for the rest of the text.
-/

namespace Freehal.Wiki

open Lib.Brackets

variable {start stop c : Char} {text before after : Str}

/-! ## The counter -/

theorem opened_eq (gap : Int) (start c : Char) :
    (if c = start then gap + 1 else gap) = gap + if c = start then 1 else 0 := by
  split <;> omega

theorem closed_eq (gap : Int) (stop c : Char) :
    (if c = stop then gap - 1 else gap) = gap - if c = stop then 1 else 0 := by
  split <;> omega

theorem removeFrom_append (gap : Int) (u w : Str) :
    removeFrom start stop gap (u ++ w) =
      removeFrom start stop gap u ++ removeFrom start stop (gap + surplus start stop u) w := by
  induction u generalizing gap with
  | nil => simp [removeFrom]
  | cons c u ih =>
      simp only [List.cons_append, removeFrom, ih, List.append_assoc, surplus_cons, weight,
        opened_eq, closed_eq]
      congr 3
      omega

/-- The round that reads `c` after `before` appends it to what is kept. -/
def Keeps (start stop : Char) (before : Str) (c : Char) : Prop :=
  removeBetween (before ++ [c]) start stop = removeBetween before start stop ++ [c]

theorem keeps_iff :
    Keeps start stop before c ↔ surplus start stop before + (if c = start then 1 else 0) = 0 := by
  simp only [Keeps, removeBetween, removeFrom_append, removeFrom, opened_eq,
    List.append_cancel_left_eq, Int.zero_add, List.append_nil]
  split <;> simp_all

/-- Every character that is in no bracket is kept. -/
def KeepsOutside (start stop : Char) (text : Str) : Prop :=
  ∀ before c after, text = before ++ c :: after →
    ¬Inside start stop before c after → Keeps start stop before c

/-- Every character is kept that is in no bracket and behind no start that stays open. -/
def KeepsBeforeUnclosed (start stop : Char) (text : Str) : Prop :=
  ∀ before c after, text = before ++ c :: after → ¬Inside start stop before c after →
    ¬Unclosed start stop before c after → Keeps start stop before c

/-- The text has a stray stop, and nothing but brackets is behind it, or brackets and then a start
with a rest. -/
def StrayStop (start stop : Char) (rest : Str → Prop) (text : Str) : Prop :=
  ∃ u d r, Balanced start stop u ∧ OnlyBrackets start stop d ∧
    (r = [] ∨ ∃ w, r = start :: w ∧ rest w) ∧ text = u ++ stop :: (d ++ r)

/-! ## Characters that are kept -/

theorem inside_or_keeps (hne : start ≠ stop) (h : Balanced start stop text)
    (htext : text = before ++ c :: after) :
    Inside start stop before c after ∨ Keeps start stop before c := by
  by_cases hc : surplus start stop before + (if c = start then 1 else 0) = 0
  · exact Or.inr (keeps_iff.mpr hc)
  · exact Or.inl (h.inside hne htext hc)

/-- Only a character behind the brackets after a stray stop may be lost. -/
theorem inside_or_keeps_or_behind {u d r : Str} (hne : start ≠ stop)
    (hu : Balanced start stop u) (hd : OnlyBrackets start stop d)
    (htext : u ++ stop :: (d ++ r) = before ++ c :: after) :
    (Inside start stop before c after ∨ Keeps start stop before c) ∨
      ∃ z, before = u ++ stop :: (d ++ z) ∧ r = z ++ c :: after := by
  rcases position_append htext with ⟨z, hz, rfl⟩ | ⟨z, rfl, hz⟩
  · exact Or.inl ((inside_or_keeps hne hu hz).imp_left fun h => h.append_right _)
  · cases z with
    | nil =>
        obtain ⟨rfl, _⟩ := List.cons.inj hz
        refine Or.inl (Or.inr (keeps_iff.mpr ?_))
        simp [hu.surplus_eq hne, hne.symm]
    | cons e z =>
        obtain ⟨rfl, htail⟩ := List.cons.inj hz
        rcases position_append htail with ⟨z', hd', rfl⟩ | ⟨z', rfl, hr⟩
        · refine Or.inl (Or.inl ?_)
          simpa using ((hd.inside hd').append_right r).append_left (u ++ [stop])
        · exact Or.inr ⟨z', rfl, hr⟩

theorem keepsBeforeUnclosed_of_rising (hne : start ≠ stop) (h : Rising start stop text) :
    KeepsBeforeUnclosed start stop text := by
  intro before c after htext hin hun
  rcases h.balanced_or_stray hne with hb | ⟨u, r, hu, hr, rfl⟩
  · exact (inside_or_keeps hne hb htext).resolve_left hin
  · rcases position_append htext with ⟨z, hz, rfl⟩ | ⟨z, rfl, hz⟩
    · exact (inside_or_keeps hne hu hz).resolve_left fun h => hin (h.append_right _)
    · exact absurd ((hr.unclosed hne hz).append_left u) hun

theorem StrayStop.keepsBeforeUnclosed (hne : start ≠ stop)
    (h : StrayStop start stop (Rising start stop) text) : KeepsBeforeUnclosed start stop text := by
  obtain ⟨u, d, r, hu, hd, hr, rfl⟩ := h
  intro before c after htext hin hun
  rcases inside_or_keeps_or_behind hne hu hd htext with h | ⟨z, rfl, hz⟩
  · exact h.resolve_left hin
  · rcases hr with rfl | ⟨w, rfl, hw⟩
    · simp at hz
    · refine absurd ?_ hun
      simpa using (hw.unclosed hne hz).append_left (u ++ stop :: d)

theorem StrayStop.keepsOutside (hne : start ≠ stop)
    (h : StrayStop start stop (Balanced start stop) text) : KeepsOutside start stop text := by
  obtain ⟨u, d, r, hu, hd, hr, rfl⟩ := h
  intro before c after htext hin
  rcases inside_or_keeps_or_behind hne hu hd htext with h | ⟨z, rfl, hz⟩
  · exact h.resolve_left hin
  · have hd := hd.balanced.surplus_eq hne
    rcases hr with rfl | ⟨w, rfl, hw⟩
    · simp at hz
    · cases z with
      | nil =>
          obtain ⟨rfl, _⟩ := List.cons.inj hz
          refine keeps_iff.mpr ?_
          simp [hu.surplus_eq hne, hd, weight_stop hne]
      | cons e z =>
          obtain ⟨rfl, htail⟩ := List.cons.inj hz
          -- the unclosed start has taken back the stray stop
          rcases inside_or_keeps hne hw htail with h | h
          · refine absurd ?_ hin
            simpa using h.append_left (u ++ stop :: (d ++ [start]))
          · refine keeps_iff.mpr ?_
            have h := keeps_iff.mp h
            simp only [surplus_append, surplus_cons, hu.surplus_eq hne, hd, weight_stop hne,
              weight_start hne]
            omega

/-! ## Characters that are lost -/

/-- Behind a stray stop, the next stop or plain character is lost. -/
theorem not_keepsBeforeUnclosed {u d r : Str} (hne : start ≠ stop) (hu : Balanced start stop u)
    (hd : Balanced start stop d) (hc : c ≠ start) :
    ¬KeepsBeforeUnclosed start stop (u ++ stop :: (d ++ c :: r)) := by
  intro hk
  have hstop : Falling start stop [stop] := Falling.singleton (by simp [weight_stop hne])
  have hlast : Falling start stop [c] := by
    refine Falling.singleton ?_
    simp only [weight, hc, if_false]
    split <;> omega
  have hbefore : Falling start stop (u ++ ([stop] ++ d)) :=
    (hu.falling hne).append (hstop.append (hd.falling hne))
  have hkeeps := hk (u ++ ([stop] ++ d)) c r (by simp) (hbefore.not_inside hne hc)
    ((hbefore.append hlast).not_unclosed hne)
  have := keeps_iff.mp hkeeps
  simp [hu.surplus_eq hne, hd.surplus_eq hne, weight_stop hne, hc] at this

theorem strayStop_of_keeps {u w : Str} (hne : start ≠ stop) (hu : Balanced start stop u)
    (hk : KeepsBeforeUnclosed start stop (u ++ stop :: w)) :
    StrayStop start stop (Rising start stop) (u ++ stop :: w) := by
  rcases balanced_or_stray hne w with hw | ⟨v, r, hv, rfl⟩ | ⟨v, r, hv, hr, rfl⟩
  · rcases hw.onlyBrackets_or_plain with hd | ⟨d, c, r, hd, hstart, _, rfl⟩
    · exact ⟨u, w, [], hu, hd, Or.inl rfl, by simp⟩
    · exact absurd hk (not_keepsBeforeUnclosed hne hu hd.balanced hstart)
  · exact absurd hk (not_keepsBeforeUnclosed hne hu hv hne.symm)
  · rcases hv.onlyBrackets_or_plain with hd | ⟨d, c, r', hd, hstart, _, rfl⟩
    · exact ⟨u, v, start :: r, hu, hd, Or.inr ⟨r, rfl, hr⟩, rfl⟩
    · rw [List.append_assoc, List.cons_append] at hk
      exact absurd hk (not_keepsBeforeUnclosed hne hu hd.balanced hstart)

theorem keepsBeforeUnclosed_iff (hne : start ≠ stop) :
    KeepsBeforeUnclosed start stop text ↔
      Rising start stop text ∨ StrayStop start stop (Rising start stop) text := by
  constructor
  · intro hk
    rcases balanced_or_stray hne text with hb | ⟨u, r, hu, rfl⟩ | ⟨u, r, hu, hr, rfl⟩
    · exact Or.inl (hb.rising hne)
    · exact Or.inr (strayStop_of_keeps hne hu hk)
    · have hstart : Rising start stop [start] := Rising.singleton (by simp [weight_start hne])
      exact Or.inl ((hu.rising hne).append (hstart.append hr))
  · intro h
    rcases h with h | h
    · exact keepsBeforeUnclosed_of_rising hne h
    · exact h.keepsBeforeUnclosed hne

/-- An unclosed start is lost where the counter is not below zero. -/
theorem not_keepsOutside {r : Str} (hne : start ≠ stop) (hbefore : 0 ≤ surplus start stop before)
    (hr : Rising start stop r) : ¬KeepsOutside start stop (before ++ start :: r) := by
  intro hk
  have := keeps_iff.mp (hk before start r rfl (hr.not_inside hne hne))
  simp only [if_true] at this
  omega

theorem keepsOutside_iff (hne : start ≠ stop) :
    KeepsOutside start stop text ↔
      Balanced start stop text ∨ StrayStop start stop (Balanced start stop) text := by
  constructor
  · intro hk
    have hk' : KeepsBeforeUnclosed start stop text := fun before c after h hin _ =>
      hk before c after h hin
    rcases (keepsBeforeUnclosed_iff hne).mp hk' with h | ⟨u, d, r, hu, hd, hr, rfl⟩
    · rcases h.balanced_or_stray hne with hb | ⟨u, r, hu, hr, rfl⟩
      · exact Or.inl hb
      · exact absurd hk (not_keepsOutside hne (by simp [hu.surplus_eq hne]) hr)
    · refine Or.inr ⟨u, d, r, hu, hd, hr.imp_right ?_, rfl⟩
      rintro ⟨w, rfl, hw⟩
      refine ⟨w, rfl, ?_⟩
      rcases hw.balanced_or_stray hne with hb | ⟨v, s, hv, hs, rfl⟩
      · exact hb
      · have hbefore : 0 ≤ surplus start stop (u ++ stop :: (d ++ start :: v)) := by
          simp [hu.surplus_eq hne, hd.balanced.surplus_eq hne, hv.surplus_eq hne,
            weight_stop hne, weight_start hne]
        refine absurd ?_ (not_keepsOutside hne hbefore hs)
        simpa using hk
  · intro h
    rcases h with h | h
    · exact fun before c after htext hin => (inside_or_keeps hne h htext).resolve_left hin
    · exact h.keepsOutside hne

/-- Everything outside of brackets is kept when the text is balanced, or when only brackets and
perhaps an unclosed start with a balanced rest are behind its one stray stop. The rest may have
more unclosed starts where these count as brackets as well, and so may a text without a stray
stop. -/
theorem removeBetween_keeps_iff (text : Str) {start stop : Char} (hne : start ≠ stop) :
    (KeepsOutside start stop text ↔
        Balanced start stop text ∨ StrayStop start stop (Balanced start stop) text) ∧
      (KeepsBeforeUnclosed start stop text ↔
        Rising start stop text ∨ StrayStop start stop (Rising start stop) text) :=
  ⟨keepsOutside_iff hne, keepsBeforeUnclosed_iff hne⟩

theorem removeBetween_keeps_iff_parentheses :
    (KeepsOutside '(' ')' "a)(b)".toList ↔ Balanced '(' ')' "a)(b)".toList ∨
        StrayStop '(' ')' (Balanced '(' ')') "a)(b)".toList) ∧
      (KeepsBeforeUnclosed '(' ')' "a)(b)".toList ↔ Rising '(' ')' "a)(b)".toList ∨
        StrayStop '(' ')' (Rising '(' ')') "a)(b)".toList) :=
  removeBetween_keeps_iff "a)(b)".toList (by decide)

/-- Behind a stray stop the text is lost and the bracket is kept. -/
theorem removeBetween_stray :
    removeBetween "a)b(c)d".toList '(' ')' = "a)(c)".toList ∧
      ¬KeepsOutside '(' ')' "a)b(c)d".toList := by
  refine ⟨by decide, fun hk => ?_⟩
  have ha : Balanced '(' ')' ['a'] := .plain (by decide) (by decide) .nil
  exact @not_keepsBeforeUnclosed '(' ')' 'b' ['a'] [] "(c)d".toList (by decide) ha .nil
    (by decide) fun before c after h hin _ => hk before c after h hin

end Freehal.Wiki
