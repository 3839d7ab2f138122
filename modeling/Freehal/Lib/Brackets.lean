import Mathlib.Data.List.Basic

/-!
# Brackets in a text

A bracket runs from a start to the stop that closes it, with balanced text between them. A stop
may have no start in front of it, and a start may be closed by no stop.
-/

namespace Freehal.Lib.Brackets

variable {α : Type} {start stop c : α} {u v w before after : List α}

/-- A text in which every start is closed and every stop closes one. -/
inductive Balanced (start stop : α) : List α → Prop
  | nil : Balanced start stop []
  | plain {c : α} {w : List α} (hstart : c ≠ start) (hstop : c ≠ stop)
      (hw : Balanced start stop w) : Balanced start stop (c :: w)
  | bracket {u w : List α} (hu : Balanced start stop u) (hw : Balanced start stop w) :
      Balanced start stop (start :: (u ++ stop :: w))

/-- A text of nothing but brackets. -/
inductive OnlyBrackets (start stop : α) : List α → Prop
  | nil : OnlyBrackets start stop []
  | bracket {u w : List α} (hu : Balanced start stop u) (hw : OnlyBrackets start stop w) :
      OnlyBrackets start stop (start :: (u ++ stop :: w))

def Bracket (start stop : α) (w : List α) : Prop :=
  ∃ u, Balanced start stop u ∧ w = start :: (u ++ [stop])

/-- The character belongs to a bracket of its text. -/
def Inside (start stop : α) (before : List α) (c : α) (after : List α) : Prop :=
  ∃ p u v s, before = p ++ u ∧ after = v ++ s ∧ Bracket start stop (u ++ c :: v)

/-- The character is a start that is never closed, or stands behind one. -/
def Unclosed (start stop : α) (before : List α) (c : α) (after : List α) : Prop :=
  ∃ p m, before ++ [c] = p ++ start :: m ∧
    ∀ u s, Balanced start stop u → m ++ after ≠ u ++ stop :: s

theorem Inside.append_left (h : Inside start stop before c after) (x : List α) :
    Inside start stop (x ++ before) c after := by
  obtain ⟨p, u, v, s, rfl, rfl, hb⟩ := h
  exact ⟨x ++ p, u, v, s, by simp, rfl, hb⟩

theorem Inside.append_right (h : Inside start stop before c after) (x : List α) :
    Inside start stop before c (after ++ x) := by
  obtain ⟨p, u, v, s, rfl, rfl, hb⟩ := h
  exact ⟨p, u, v, s ++ x, rfl, by simp, hb⟩

theorem Unclosed.append_left (h : Unclosed start stop before c after) (x : List α) :
    Unclosed start stop (x ++ before) c after := by
  obtain ⟨p, m, hp, hm⟩ := h
  exact ⟨x ++ p, m, by simp [hp], hm⟩

theorem OnlyBrackets.balanced (h : OnlyBrackets start stop w) : Balanced start stop w := by
  induction h with
  | nil => exact .nil
  | bracket hu _ ih => exact .bracket hu ih

/-- A character of two texts is one of the first or one of the second. -/
theorem position_append (h : u ++ w = before ++ c :: after) :
    (∃ z, u = before ++ c :: z ∧ after = z ++ w) ∨ ∃ z, before = u ++ z ∧ w = z ++ c :: after := by
  rcases List.append_eq_append_iff.mp h with hz | ⟨z, hz, hafter⟩
  · exact Or.inr hz
  · cases z with
    | nil => exact Or.inr ⟨[], by simpa using hz.symm, hafter.symm⟩
    | cons d z =>
        obtain ⟨rfl, rfl⟩ := List.cons.inj hafter
        exact Or.inl ⟨z, hz, rfl⟩

/-- A character of a text that begins with a bracket is inside of it or behind it. -/
theorem inside_or_behind (hu : Balanced start stop u)
    (h : start :: (u ++ stop :: w) = before ++ c :: after) :
    Inside start stop before c after ∨
      ∃ z, before = start :: (u ++ [stop]) ++ z ∧ w = z ++ c :: after := by
  have h : (start :: (u ++ [stop])) ++ w = before ++ c :: after := by simpa using h
  rcases position_append h with ⟨z, hz, rfl⟩ | hz
  · exact Or.inl ⟨[], before, z, w, rfl, rfl, u, hu, hz.symm⟩
  · exact Or.inr hz

theorem OnlyBrackets.inside (h : OnlyBrackets start stop w) :
    ∀ {before}, w = before ++ c :: after → Inside start stop before c after := by
  induction h with
  | nil => simp
  | bracket hu _ ih =>
      intro before hw
      rcases inside_or_behind hu hw with hin | ⟨z, rfl, hz⟩
      · exact hin
      · exact (ih hz).append_left _

theorem Balanced.onlyBrackets_or_plain (h : Balanced start stop w) :
    OnlyBrackets start stop w ∨
      ∃ d c r, OnlyBrackets start stop d ∧ c ≠ start ∧ c ≠ stop ∧ w = d ++ c :: r := by
  induction h with
  | nil => exact Or.inl .nil
  | @plain c w hstart hstop _ _ => exact Or.inr ⟨[], c, w, .nil, hstart, hstop, rfl⟩
  | bracket hu _ _ ih =>
      rcases ih with hd | ⟨d, c, r, hd, hstart, hstop, rfl⟩
      · exact Or.inl (.bracket hu hd)
      · exact Or.inr ⟨_, c, r, .bracket hu hd, hstart, hstop, by simp⟩

/-! ## Starts without stops -/

section

variable [DecidableEq α]

/-- What a character opens, less what it closes. -/
def weight (start stop c : α) : Int := (if c = start then 1 else 0) - if c = stop then 1 else 0

/-- The starts of a text, less its stops. -/
def surplus (start stop : α) : List α → Int
  | [] => 0
  | c :: w => weight start stop c + surplus start stop w

@[simp] theorem surplus_nil : surplus start stop [] = 0 := rfl

@[simp] theorem surplus_cons :
    surplus start stop (c :: w) = weight start stop c + surplus start stop w := rfl

@[simp] theorem surplus_append :
    surplus start stop (u ++ w) = surplus start stop u + surplus start stop w := by
  induction u with
  | nil => simp
  | cons c u ih => simp [ih, Int.add_assoc]

theorem weight_start (hne : start ≠ stop) : weight start stop start = 1 := by simp [weight, hne]

theorem weight_stop (hne : start ≠ stop) : weight start stop stop = -1 := by
  simp [weight, hne.symm]

theorem weight_plain (hstart : c ≠ start) (hstop : c ≠ stop) : weight start stop c = 0 := by
  simp [weight, hstart, hstop]

/-- No stop of the text is without a start. -/
def Rising (start stop : α) (w : List α) : Prop := ∀ u v, w = u ++ v → 0 ≤ surplus start stop u

/-- No start of the text is without a stop. -/
def Falling (start stop : α) (w : List α) : Prop := ∀ u v, w = u ++ v → surplus start stop v ≤ 0

theorem Rising.append (hu : Rising start stop u) (hw : Rising start stop w) :
    Rising start stop (u ++ w) := by
  intro x y h
  rcases List.append_eq_append_iff.mp h with ⟨z, rfl, hz⟩ | ⟨z, hz, _⟩
  · have hu := hu u [] (by simp)
    have hw := hw z y hz
    simp only [surplus_append]
    omega
  · exact hu x z hz

theorem Falling.append (hu : Falling start stop u) (hw : Falling start stop w) :
    Falling start stop (u ++ w) := by
  intro x y h
  rcases List.append_eq_append_iff.mp h with ⟨z, _, hz⟩ | ⟨z, hz, rfl⟩
  · exact hw z y hz
  · have hu := hu x z hz
    have hw := hw [] w (by simp)
    simp only [surplus_append]
    omega

theorem Rising.singleton (h : 0 ≤ weight start stop c) : Rising start stop [c] := by
  intro u v huv
  cases u with
  | nil => simp
  | cons d u =>
      obtain ⟨rfl, h'⟩ := List.cons.inj huv
      obtain ⟨rfl, _⟩ := List.append_eq_nil_iff.mp h'.symm
      simpa using h

theorem Falling.singleton (h : weight start stop c ≤ 0) : Falling start stop [c] := by
  intro u v huv
  cases u with
  | nil =>
      subst huv
      simpa using h
  | cons d u =>
      obtain ⟨rfl, h'⟩ := List.cons.inj huv
      obtain ⟨_, rfl⟩ := List.append_eq_nil_iff.mp h'.symm
      simp

/-! ## Balanced texts -/

theorem Balanced.surplus_eq (hne : start ≠ stop) (h : Balanced start stop w) :
    surplus start stop w = 0 := by
  induction h with
  | nil => rfl
  | plain hstart hstop _ ih => simp [weight_plain hstart hstop, ih]
  | bracket _ _ ihu ihw => simp [weight_start hne, weight_stop hne, ihu, ihw]

theorem Balanced.rising (hne : start ≠ stop) (h : Balanced start stop w) :
    Rising start stop w := by
  induction h with
  | nil =>
      intro u v huv
      obtain ⟨rfl, _⟩ := List.append_eq_nil_iff.mp huv.symm
      exact Int.le_refl _
  | plain hstart hstop _ ih =>
      exact (Rising.singleton (Int.le_of_eq (weight_plain hstart hstop).symm)).append ih
  | @bracket u w hu _ ihu ihw =>
      intro x y h
      cases x with
      | nil => exact Int.le_refl _
      | cons d x =>
          obtain ⟨rfl, htail⟩ := List.cons.inj h
          simp only [surplus_cons, weight_start hne]
          rcases List.append_eq_append_iff.mp htail with ⟨z, rfl, hz⟩ | ⟨z, rfl, _⟩
          · cases z with
            | nil => simp [hu.surplus_eq hne]
            | cons d z =>
                obtain ⟨rfl, hw⟩ := List.cons.inj hz
                have := ihw z y hw
                simp only [surplus_append, surplus_cons, weight_stop hne, hu.surplus_eq hne]
                omega
          · have := ihu x z rfl
            omega

theorem Balanced.falling (hne : start ≠ stop) (h : Balanced start stop w) :
    Falling start stop w := by
  intro u v huv
  subst huv
  have hu := h.rising hne u v rfl
  have huv := h.surplus_eq hne
  simp only [surplus_append] at huv
  omega

/-- A bracket is not closed before its end. -/
theorem Bracket.surplus_pos (hne : start ≠ stop) (h : Bracket start stop (u ++ v)) (hu : u ≠ [])
    (hv : v ≠ []) : 0 < surplus start stop u := by
  obtain ⟨q, hq, h⟩ := h
  obtain ⟨d, u, rfl⟩ := List.exists_cons_of_ne_nil hu
  obtain ⟨v, e, rfl⟩ := (List.eq_nil_or_concat' v).resolve_left hv
  obtain ⟨rfl, htail⟩ := List.cons.inj h
  obtain ⟨hq', _⟩ := List.append_inj' ((List.append_assoc u v [e]).trans htail) rfl
  have := hq.rising hne u v hq'.symm
  simp only [surplus_cons, weight_start hne]
  omega

theorem Bracket.surplus_eq (hne : start ≠ stop) (h : Bracket start stop w) :
    surplus start stop w = 0 := by
  obtain ⟨q, hq, rfl⟩ := h
  simp [weight_start hne, weight_stop hne, hq.surplus_eq hne]

/-! ## Which characters are inside -/

/-- Where every start is closed, a character is inside only when it is a start. -/
theorem Falling.not_inside (hne : start ≠ stop) (h : Falling start stop before) (hc : c ≠ start) :
    ¬Inside start stop before c after := by
  rintro ⟨p, u, v, s, rfl, rfl, hb⟩
  by_cases hu : u = []
  · subst hu
    obtain ⟨q, _, hq⟩ := hb
    exact hc (List.cons.inj hq).1
  · have hpos := hb.surplus_pos hne hu (List.cons_ne_nil c v)
    have := h p u rfl
    omega

/-- Where no stop is left for it, a character is inside only when it is a stop. -/
theorem Rising.not_inside (hne : start ≠ stop) (h : Rising start stop after) (hc : c ≠ stop) :
    ¬Inside start stop before c after := by
  rintro ⟨p, u, v, s, rfl, rfl, hb⟩
  by_cases hv : v = []
  · subst hv
    obtain ⟨q, _, hq⟩ := hb
    rw [← List.cons_append] at hq
    exact hc (List.cons.inj (List.append_inj' hq rfl).2).1
  · have heq := hb.surplus_eq hne
    rw [List.append_cons] at hb
    have hpos := hb.surplus_pos hne (by simp) hv
    have := h v s rfl
    simp only [surplus_append, surplus_cons, surplus_nil] at heq hpos
    omega

/-- A character of a balanced text that is deeper than the text itself is inside. -/
theorem Balanced.inside (hne : start ≠ stop) (h : Balanced start stop w) :
    ∀ {before}, w = before ++ c :: after →
      surplus start stop before + (if c = start then 1 else 0) ≠ 0 →
      Inside start stop before c after := by
  induction h with
  | nil => simp
  | plain hstart hstop _ ih =>
      intro before hw hc
      cases before with
      | nil =>
          obtain ⟨rfl, _⟩ := List.cons.inj hw
          simp [hstart] at hc
      | cons e before =>
          obtain ⟨rfl, htail⟩ := List.cons.inj hw
          refine (ih htail ?_).append_left [_]
          simpa [weight_plain hstart hstop] using hc
  | bracket hu _ _ ih =>
      intro before hw hc
      rcases inside_or_behind hu hw with hin | ⟨z, rfl, hz⟩
      · exact hin
      · refine (ih hz ?_).append_left _
        have hb : surplus start stop (start :: (_ ++ [stop])) = 0 :=
          Bracket.surplus_eq hne ⟨_, hu, rfl⟩
        rwa [surplus_append, hb, Int.zero_add] at hc

/-! ## Stray characters -/

/-- A text that is not balanced has a first stray stop, or else only starts that are not closed. -/
theorem balanced_or_stray (hne : start ≠ stop) (w : List α) :
    Balanced start stop w ∨ (∃ u r, Balanced start stop u ∧ w = u ++ stop :: r) ∨
      ∃ u r, Balanced start stop u ∧ Rising start stop r ∧ w = u ++ start :: r := by
  induction hn : w.length using Nat.strongRecOn generalizing w with
  | ind n ih =>
      subst hn
      cases w with
      | nil => exact Or.inl .nil
      | cons c w =>
          have hw := ih w.length (by simp) w rfl
          by_cases hstop : c = stop
          · subst hstop
            exact Or.inr (Or.inl ⟨[], w, .nil, rfl⟩)
          by_cases hstart : c = start
          · subst hstart
            rcases hw with hw | ⟨u, r, hu, rfl⟩ | ⟨u, r, hu, hr, rfl⟩
            · exact Or.inr (Or.inr ⟨[], w, .nil, hw.rising hne, rfl⟩)
            · -- the start is closed, and the rest decides
              rcases ih r.length (by simp; omega) r rfl with
                hr | ⟨u', r', hu', rfl⟩ | ⟨u', r', hu', hr', rfl⟩
              · exact Or.inl (.bracket hu hr)
              · exact Or.inr (Or.inl ⟨_, r', .bracket hu hu', by simp⟩)
              · exact Or.inr (Or.inr ⟨_, r', .bracket hu hu', hr', by simp⟩)
            · have hc : Rising c stop [c] := Rising.singleton (by simp [weight_start hne])
              exact Or.inr (Or.inr ⟨[], _, .nil, (hu.rising hne).append (hc.append hr), rfl⟩)
          · rcases hw with hw | ⟨u, r, hu, rfl⟩ | ⟨u, r, hu, hr, rfl⟩
            · exact Or.inl (.plain hstart hstop hw)
            · exact Or.inr (Or.inl ⟨c :: u, r, .plain hstart hstop hu, rfl⟩)
            · exact Or.inr (Or.inr ⟨c :: u, r, .plain hstart hstop hu, hr, rfl⟩)

/-- A rising text has no stop that closes nothing. -/
theorem Rising.ne_stray (hne : start ≠ stop) (h : Rising start stop w)
    (hu : Balanced start stop u) : w ≠ u ++ stop :: v := by
  intro hw
  have := h (u ++ [stop]) v (by simpa using hw)
  simp only [surplus_append, surplus_cons, surplus_nil, weight_stop hne, hu.surplus_eq hne] at this
  omega

theorem Rising.balanced_or_stray (hne : start ≠ stop) (h : Rising start stop w) :
    Balanced start stop w ∨
      ∃ u r, Balanced start stop u ∧ Rising start stop r ∧ w = u ++ start :: r := by
  rcases Brackets.balanced_or_stray hne w with hw | ⟨u, r, hu, hw⟩ | hw
  · exact Or.inl hw
  · exact absurd hw (h.ne_stray hne hu)
  · exact Or.inr hw

/-- Behind a start that is not closed. -/
theorem Rising.unclosed (hne : start ≠ stop) (h : Rising start stop v)
    (hv : start :: v = before ++ c :: after) : Unclosed start stop before c after := by
  cases before with
  | nil =>
      obtain ⟨rfl, rfl⟩ := List.cons.inj hv
      exact ⟨[], [], rfl, fun u s hu => h.ne_stray hne hu⟩
  | cons d before =>
      obtain ⟨rfl, rfl⟩ := List.cons.inj hv
      refine ⟨[], before ++ [c], rfl, fun u s hu => ?_⟩
      simpa using h.ne_stray hne hu

/-- Every start up to the character is closed. -/
theorem Falling.not_unclosed (hne : start ≠ stop) (h : Falling start stop (before ++ [c])) :
    ¬Unclosed start stop before c after := by
  rintro ⟨p, m, hp, hm⟩
  have hle := h p _ hp
  simp only [surplus_cons, weight_start hne] at hle
  rcases Brackets.balanced_or_stray hne m with hb | ⟨u, r, hu, rfl⟩ | ⟨u, r, hu, hr, rfl⟩
  · have := hb.surplus_eq hne
    omega
  · exact hm u (r ++ after) hu (by simp)
  · have := hr r [] (by simp)
    simp only [surplus_append, surplus_cons, weight_start hne, hu.surplus_eq hne] at hle
    omega

end

end Freehal.Lib.Brackets
