import Mathlib.Data.List.Basic

/-!
# Filling an array from several lists

Loops that share one counter, each over a list of its own. The limit is tested behind every write
only: so a loop that begins behind the limit still writes one entry.
-/

namespace Freehal.Lib

variable {α : Type} {limit n : Nat} {l e : List α} {E : List (List α)}

def fill (limit : Nat) (l e : List α) : List α := l ++ e.take (max 1 (limit - l.length))

def fillAll (limit : Nat) (l : List α) (E : List (List α)) : List α := E.foldl (fill limit) l

/-- At most one list with an entry follows the one at whose end `n` entries and those of the lists
have reached the limit. -/
def Fits (limit n : Nat) (E : List (List α)) : Prop :=
  ∀ before after, E = before ++ after → limit ≤ n + before.flatten.length →
    after.countP (!·.isEmpty) ≤ 1

theorem fillAll_cons : fillAll limit l (e :: E) = fillAll limit (fill limit l e) E := rfl

theorem fill_of_le (h : l.length + e.length ≤ limit) : fill limit l e = l ++ e := by
  rw [fill, List.take_of_length_le (by omega)]

theorem length_fill : (fill limit l e).length
    = l.length + min (max 1 (limit - l.length)) e.length := by
  simp [fill]

theorem length_le_fillAll (limit : Nat) (l : List α) (E : List (List α)) :
    l.length ≤ (fillAll limit l E).length := by
  induction E generalizing l with
  | nil => exact Nat.le_refl _
  | cons e E ih =>
      have hstep : l.length ≤ (fill limit l e).length := by rw [length_fill]; omega
      exact Nat.le_trans hstep (ih _)

theorem fillAll_of_le (h : l.length + E.flatten.length ≤ limit) :
    fillAll limit l E = l ++ E.flatten := by
  induction E generalizing l with
  | nil => simp [fillAll]
  | cons e E ih =>
      simp only [List.flatten_cons, List.length_append] at h
      rw [fillAll_cons, fill_of_le (by omega), ih (by simp only [List.length_append]; omega)]
      simp

theorem limit_le_fillAll (h : limit ≤ l.length + E.flatten.length) :
    limit ≤ (fillAll limit l E).length := by
  induction E generalizing l with
  | nil => simpa [fillAll] using h
  | cons e E ih =>
      simp only [List.flatten_cons, List.length_append] at h
      rw [fillAll_cons]
      by_cases hle : l.length + e.length ≤ limit
      · rw [fill_of_le hle]
        apply ih
        simp only [List.length_append]
        omega
      · refine Nat.le_trans ?_ (length_le_fillAll limit _ E)
        rw [length_fill]
        omega

/-- Behind the limit each list adds at most one entry. -/
theorem length_fillAll_of_limit (h : limit ≤ l.length) :
    (fillAll limit l E).length = l.length + E.countP (!·.isEmpty) := by
  induction E generalizing l with
  | nil => simp [fillAll]
  | cons e E ih =>
      have hlen := @length_fill _ limit l e
      rw [fillAll_cons, ih (by omega), hlen, List.countP_cons]
      cases e with
      | nil => simp
      | cons a e =>
          simp only [List.length_cons, List.isEmpty_cons, Bool.not_false, if_true]
          omega

/-- A list that does not pass the limit is written whole. -/
theorem fits_cons_of_le (h : n + e.length ≤ limit) :
    Fits limit n (e :: E) ↔ Fits limit (n + e.length) E := by
  constructor
  · intro hfits before after hE hlimit
    refine hfits (e :: before) after (by simp [hE]) ?_
    simp only [List.flatten_cons, List.length_append]
    omega
  · intro hfits before after hE hlimit
    cases before with
    | nil =>
        simp only [List.flatten_nil, List.length_nil] at hlimit
        obtain rfl : e = [] := List.eq_nil_of_length_eq_zero (by omega)
        have := hfits [] E rfl (by simpa using hlimit)
        rw [List.nil_append] at hE
        simpa [← hE] using this
    | cons e' before =>
        obtain ⟨rfl, hE'⟩ : e = e' ∧ E = before ++ after := List.cons_eq_cons.mp hE
        refine hfits before after hE' ?_
        simp only [List.flatten_cons, List.length_append] at hlimit
        omega

/-- A list that passes the limit leaves room for one more only if it began before the limit. -/
theorem fits_cons_of_lt (hn : n ≤ limit) (h : limit < n + e.length) :
    Fits limit n (e :: E) ↔ n + max 1 (limit - n) + E.countP (!·.isEmpty) ≤ limit + 1 := by
  have hall : (e :: E).countP (!·.isEmpty) = E.countP (!·.isEmpty) + 1 := by
    cases e with
    | nil => simp only [List.length_nil] at h; omega
    | cons a e => simp
  constructor
  · intro hfits
    have hrest := hfits [e] E rfl
    have hwhole := hfits [] (e :: E) rfl
    rw [hall] at hwhole
    simp only [List.flatten_cons, List.flatten_nil, List.append_nil, List.length_nil]
      at hrest hwhole
    omega
  · intro hle before after hE hlimit
    cases before with
    | nil =>
        rw [List.nil_append] at hE
        simp only [List.flatten_nil, List.length_nil] at hlimit
        rw [← hE, hall]
        omega
    | cons e' before =>
        have hE' : E = before ++ after := (List.cons_eq_cons.mp hE).2
        rw [hE', List.countP_append] at hle
        omega

/-- The entries end at most one behind the limit exactly when the lists fit. -/
theorem length_fillAll_le_iff (h : l.length ≤ limit) :
    (fillAll limit l E).length ≤ limit + 1 ↔ Fits limit l.length E := by
  induction E generalizing l with
  | nil =>
      have hfits : Fits limit l.length ([] : List (List α)) := by
        intro before after hE hlimit
        obtain ⟨-, rfl⟩ := List.append_eq_nil_iff.mp hE.symm
        simp
      have hlen : (fillAll limit l []).length ≤ limit + 1 := by
        simp only [fillAll, List.foldl_nil]
        omega
      exact iff_of_true hlen hfits
  | cons e E ih =>
      rw [fillAll_cons]
      by_cases hle : l.length + e.length ≤ limit
      · rw [fill_of_le hle, ih (by simpa using hle), fits_cons_of_le hle, List.length_append]
      · have hlen := @length_fill _ limit l e
        rw [fits_cons_of_lt h (by omega), length_fillAll_of_limit (by omega), hlen]
        have hmin : min (max 1 (limit - l.length)) e.length = max 1 (limit - l.length) := by omega
        rw [hmin]

end Freehal.Lib
