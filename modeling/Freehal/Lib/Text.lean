import Mathlib.Data.List.Infix

/-!
# Texts as lists of characters

Searching a text for a word between separators, and the decimal notation of a number.
-/

namespace Freehal

/-- A text, character by character. -/
abbrev Str := List Char

namespace Lib

/-! ## Words between separators -/

/-- The words of `ts`, each followed by `sep`, after a leading `sep`. -/
def spaced (sep : Char) (ts : List Str) : Str := sep :: ts.flatMap (· ++ [sep])

@[simp] theorem spaced_nil (sep : Char) : spaced sep [] = [sep] := rfl

theorem spaced_cons (sep : Char) (t : Str) (ts : List Str) :
    spaced sep (t :: ts) = sep :: (t ++ spaced sep ts) := by
  simp [spaced]

theorem intercalate_cons (sep t : Str) (ts : List Str) :
    sep.intercalate (t :: ts) = t ++ ts.flatMap (sep ++ ·) := by
  induction ts generalizing t with
  | nil => simp
  | cons u ts ih =>
      rw [List.flatMap_cons, List.append_assoc, ← ih, List.intercalate_cons_cons, List.append_assoc]

theorem not_mem_of_mem_splitOn {c : Char} {s p : Str} (h : p ∈ s.splitOn c) : c ∉ p := by
  induction s generalizing p with
  | nil =>
      have hp : p = [] := by simpa using h
      simp [hp]
  | cons d s ih =>
      rw [List.splitOn_cons_eq_if_modifyHead] at h
      split at h
      · rcases List.mem_cons.mp h with rfl | h
        · simp
        · exact ih h
      · rename_i hd
        obtain ⟨q, qs, hq⟩ := List.exists_cons_of_ne_nil (List.splitOn_ne_nil c s)
        rw [hq, List.modifyHead_cons] at h
        rcases List.mem_cons.mp h with rfl | h
        · have := ih (p := q) (by simp [hq])
          simp only [List.mem_cons, not_or]
          exact ⟨by rintro rfl; simp at hd, this⟩
        · exact ih (by simp [hq, h])

theorem mem_of_mem_splitOn {c d : Char} {s p : Str} (hp : p ∈ s.splitOn c) (hd : d ∈ p) :
    d ∈ s := by
  induction s generalizing p with
  | nil =>
      have : p = [] := by simpa using hp
      simp [this] at hd
  | cons a s ih =>
      rw [List.splitOn_cons_eq_if_modifyHead] at hp
      split at hp
      · rcases List.mem_cons.mp hp with rfl | hp
        · simp at hd
        · exact List.mem_cons_of_mem _ (ih hp hd)
      · obtain ⟨q, qs, hq⟩ := List.exists_cons_of_ne_nil (List.splitOn_ne_nil c s)
        rw [hq, List.modifyHead_cons] at hp
        rcases List.mem_cons.mp hp with rfl | hp
        · rcases List.mem_cons.mp hd with rfl | hd
          · exact List.mem_cons_self
          · exact List.mem_cons_of_mem _ (ih (p := q) (by simp [hq]) hd)
        · exact List.mem_cons_of_mem _ (ih (by simp [hq, hp]) hd)

/-- Two texts free of `sep` that are each followed by `sep` in one text are equal. -/
theorem append_sep_inj {α : Type} {sep : α} {a b r s : List α} (ha : sep ∉ a) (hb : sep ∉ b)
    (h : a ++ sep :: r = b ++ sep :: s) : a = b ∧ r = s := by
  induction a generalizing b with
  | nil =>
      cases b with
      | nil => simpa using h
      | cons c b =>
          simp only [List.nil_append, List.cons_append, List.cons.injEq] at h
          exact absurd h.1 (by rintro rfl; simp at hb)
  | cons c a ih =>
      cases b with
      | nil =>
          simp only [List.nil_append, List.cons_append, List.cons.injEq] at h
          exact absurd h.1 (by rintro rfl; simp at ha)
      | cons d b =>
          simp only [List.cons_append, List.cons.injEq] at h
          simp only [List.mem_cons, not_or] at ha hb
          obtain ⟨rfl, rfl⟩ := ih ha.2 hb.2 h.2
          exact ⟨by rw [h.1], rfl⟩

/-- The same from the right. -/
theorem append_sep_inj_right {sep : Char} {a b r s : Str} (hr : sep ∉ r) (hs : sep ∉ s)
    (h : a ++ sep :: r = b ++ sep :: s) : a = b ∧ r = s := by
  have hrev := congrArg List.reverse h
  simp only [List.reverse_append, List.reverse_cons, List.append_assoc, List.cons_append,
    List.nil_append] at hrev
  obtain ⟨hrs, hab⟩ := append_sep_inj (by simpa using hr) (by simpa using hs) hrev
  exact ⟨List.reverse_injective hab, List.reverse_injective hrs⟩

theorem prefix_of_spaced_append {sep : Char} {fs vs : List Str} {post : Str}
    (hf : ∀ f ∈ fs, sep ∉ f) (hv : ∀ v ∈ vs, sep ∉ v)
    (h : spaced sep fs ++ post = spaced sep vs) : fs <+: vs := by
  induction fs generalizing vs with
  | nil => exact List.nil_prefix
  | cons f fs ih =>
      cases vs with
      | nil => simp [spaced] at h
      | cons v vs =>
          rw [spaced_cons, spaced_cons, List.cons_append, List.cons.injEq] at h
          have h' : f ++ sep :: (fs.flatMap (· ++ [sep]) ++ post)
              = v ++ sep :: vs.flatMap (· ++ [sep]) := by
            simpa [spaced] using h.2
          obtain ⟨rfl, hr⟩ := append_sep_inj (hf f (by simp)) (hv v (by simp)) h'
          have : fs <+: vs := ih (fun g hg => hf g (by simp [hg])) (fun w hw => hv w (by simp [hw]))
            (by simpa [spaced] using hr)
          exact List.cons_prefix_cons.mpr ⟨rfl, this⟩

theorem length_le_of_append_sep {sep : Char} {p v r s : Str} (hv : sep ∉ v)
    (h : p ++ sep :: r = v ++ s) : v.length ≤ p.length := by
  by_contra hlt
  have hlt : p.length < v.length := by omega
  have hget : (p ++ sep :: r)[p.length]? = (v ++ s)[p.length]? := by rw [h]
  rw [List.getElem?_append_right (Nat.le_refl _), List.getElem?_append_left hlt] at hget
  simp only [Nat.sub_self, List.getElem?_cons_zero] at hget
  exact hv (List.mem_of_getElem? hget.symm)

/-- A text does not end inside a part that lacks its last character. -/
theorem infix_of_infix_append {c : Char} {t a b : Str} (h : t ++ [c] <:+: a ++ b) (hc : c ∉ b) :
    t ++ [c] <:+: a := by
  obtain ⟨pre, post, h⟩ := h
  obtain ⟨rest, ha, hb⟩ | ⟨rest, ha, hb⟩ := List.append_eq_append_iff.mp h
  · exact ⟨pre, rest, ha.symm⟩
  · rcases List.eq_nil_or_concat rest with rfl | ⟨rest, d, rfl⟩
    · exact ⟨pre, [], by simpa using ha⟩
    · have hd : c = d := by
        have hlast := congrArg List.getLast? ha
        simpa [List.getLast?_append] using hlast
      exact (hc (by simp [hb, hd])).elim

/-- A spaced list of words occurs in the text of another one only where the words
themselves do. -/
theorem infix_of_spaced_infix {sep : Char} {fs vs : List Str} (hf : ∀ f ∈ fs, sep ∉ f)
    (hv : ∀ v ∈ vs, sep ∉ v) (h : spaced sep fs <:+: spaced sep vs) : fs <:+: vs := by
  obtain ⟨pre, post, h⟩ := h
  induction vs generalizing pre with
  | nil =>
      cases pre with
      | nil => exact (prefix_of_spaced_append hf hv (by simpa using h)).isInfix
      | cons c pre => simp [spaced] at h
  | cons v vs ih =>
      cases pre with
      | nil => exact (prefix_of_spaced_append hf hv (by simpa using h)).isInfix
      | cons c pre =>
          have hv' : sep ∉ v := hv v (by simp)
          rw [spaced_cons, List.cons_append, List.cons_append, List.cons.injEq] at h
          have hlen : v.length ≤ pre.length :=
            length_le_of_append_sep (p := pre) (r := fs.flatMap (· ++ [sep]) ++ post) hv'
              (by simpa [spaced] using h.2)
          have hpre : pre <+: v ++ spaced sep vs := by
            rw [← h.2, List.append_assoc]; exact List.prefix_append _ _
          obtain ⟨pre', rfl⟩ : v <+: pre :=
            List.prefix_of_prefix_length_le (List.prefix_append _ _) hpre hlen
          have := ih (fun w hw => hv w (by simp [hw])) pre'
            (by simpa [List.append_assoc] using h.2)
          exact this.trans (List.suffix_cons _ _).isInfix

/-! ## Decimal notation -/

/-- The decimal notation of `n`. -/
def decimal (n : Nat) : Str := Nat.toDigits 10 n

theorem decimal_ne_nil (n : Nat) : decimal n ≠ [] := Nat.toDigits_ne_nil

theorem isDigit_of_mem_decimal {n : Nat} {c : Char} (h : c ∈ decimal n) : c.isDigit :=
  Nat.isDigit_of_mem_toDigits (by decide) (by decide) h

theorem ofDigitChars_decimal (n : Nat) : Nat.ofDigitChars 10 (decimal n) 0 = n :=
  Nat.ofDigitChars_ten_toDigits

theorem decimal_injective {m n : Nat} (h : decimal m = decimal n) : m = n := by
  rw [← ofDigitChars_decimal m, h, ofDigitChars_decimal]

theorem length_decimal_le_eight {n : Nat} (h : n < 100000000) : (decimal n).length ≤ 8 :=
  (Nat.length_toDigits_le_iff (by decide) (by decide)).mpr h

/-- The decimal notation of a signed number. -/
def signed (i : Int) : Str := if i < 0 then '-' :: decimal i.natAbs else decimal i.natAbs

theorem signed_ne_nil (i : Int) : signed i ≠ [] := by
  unfold signed
  split
  · simp
  · exact decimal_ne_nil _

theorem not_mem_decimal {n : Nat} {c : Char} (hc : c.isDigit = false) : c ∉ decimal n := by
  intro h
  rw [isDigit_of_mem_decimal h] at hc
  cases hc

end Lib

end Freehal
