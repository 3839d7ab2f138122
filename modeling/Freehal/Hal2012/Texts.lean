import Freehal.Hal2012.Reading

/-!
# The texts of an exported record

Which texts are kept between tags, and what is read back from the texts of the flags and of the
truth value.
-/

namespace Freehal.Hal2012

open Grammar2012 (isBlank isTrimmed trim isBlank_of_isTrimmed)
open Lib (decimal signed)

/-! ## Texts that are kept -/

theorem trim_eq_self {text : Str} (hhead : ∀ c ∈ text.head?, isTrimmed c = false)
    (hlast : ∀ c ∈ text.getLast?, isTrimmed c = false) : trim text = text := by
  have hleft : text.dropWhile isTrimmed = text := by
    rw [List.dropWhile_eq_self_iff]
    intro hlen
    cases text with
    | nil => cases hlen
    | cons c text => simp [hhead c rfl]
  rw [trim, hleft, List.rdropWhile_eq_self_iff]
  intro hne
  simp [hlast _ (List.getLast?_eq_some_getLast hne)]

theorem trim_last {text : Str} : ∀ c ∈ (trim text).getLast?, isTrimmed c = false := by
  intro c hc
  have hne : (text.dropWhile isTrimmed).rdropWhile isTrimmed ≠ [] := by
    intro h
    rw [trim, h] at hc
    cases hc
  have hlast := List.rdropWhile_last_not isTrimmed _ hne
  rw [trim, List.getLast?_eq_some_getLast hne] at hc
  cases hc
  simpa using hlast

/-- Blanks at the end aside, the last character stays. -/
theorem getLast?_collapse {text : Str} {space : Bool}
    (h : ∀ c ∈ text.getLast?, isBlank c = false) :
    (collapse space text).getLast? = text.getLast? := by
  induction text generalizing space with
  | nil => rfl
  | cons c text ih =>
      cases text with
      | nil =>
          have hc : isBlank c = false := h c rfl
          simp [collapse, hc]
      | cons d text =>
          have hrest : ∀ space, (collapse space (d :: text)).getLast? = (d :: text).getLast? :=
            fun space => ih (by simpa [List.getLast?_cons_cons] using h)
          have hsome := List.getLast?_eq_some_getLast (List.cons_ne_nil d text)
          rw [collapse, List.getLast?_cons_cons]
          split
          · rw [List.getLast?_append, hrest true, hsome]
            rfl
          · rw [List.getLast?_cons, hrest false, hsome]
            rfl

theorem trim_collapse (text : Str) :
    trim (collapse false (trim text)) = collapse false (trim text) := by
  refine trim_eq_self ?_ ?_
  · cases htext : trim text with
    | nil => simp [collapse]
    | cons c rest =>
        have hc : isTrimmed c = false := trim_head c (by rw [htext]; rfl)
        simp [collapse, isBlank_of_isTrimmed hc, hc]
  · rw [getLast?_collapse fun c hc => isBlank_of_isTrimmed (trim_last c hc)]
    exact trim_last

/-- Every blank is a space, and no two spaces follow each other. -/
structure SingleSpaced (text : Str) : Prop where
  space : ∀ c ∈ text, isBlank c = true → c = ' '
  single : text.IsChain fun c d => ¬ (c = ' ' ∧ d = ' ')

theorem SingleSpaced.collapse {text : Str} (h : SingleSpaced text) {space : Bool}
    (hhead : space = true → text.head? ≠ some ' ') : collapse space text = text := by
  induction text generalizing space with
  | nil => rfl
  | cons c text ih =>
      have hrest : SingleSpaced text := ⟨fun d hd => h.space d (List.mem_cons_of_mem _ hd),
        h.single.of_cons⟩
      rw [Hal2012.collapse]
      split
      · rename_i hb
        obtain rfl := h.space c List.mem_cons_self hb
        have hnext : text.head? ≠ some ' ' := by
          intro hd
          cases text with
          | nil => cases hd
          | cons d text =>
              cases hd
              exact (List.isChain_cons_cons.mp h.single).1 ⟨rfl, rfl⟩
        rw [ih hrest fun _ => hnext]
        cases space with
        | true => exact absurd rfl (hhead rfl)
        | false => rfl
      · rw [ih hrest fun hf => by cases hf]

theorem length_collapse (space : Bool) (text : Str) :
    (collapse space text).length ≤ text.length := by
  induction text generalizing space with
  | nil => exact Nat.le_refl _
  | cons c text ih =>
      have htrue := ih true
      have hfalse := ih false
      rw [collapse]
      split
      · cases space <;> simp <;> omega
      · simp only [List.length_cons]
        omega

theorem singleSpaced_of_collapse {text : Str} {space : Bool} (h : collapse space text = text) :
    SingleSpaced text ∧ (space = true → ∀ c ∈ text.head?, isBlank c = false) := by
  induction text generalizing space with
  | nil => exact ⟨⟨by simp, List.isChain_nil⟩, by simp⟩
  | cons c text ih =>
      rw [collapse] at h
      split at h
      · rename_i hb
        cases space with
        | true =>
            have hlen := congrArg List.length h
            have hle := length_collapse true text
            simp at hlen
            omega
        | false =>
            rw [if_neg (by decide), List.singleton_append, List.cons.injEq] at h
            obtain ⟨rfl, h⟩ := h
            obtain ⟨hrest, hhead⟩ := ih h
            refine ⟨⟨?_, ?_⟩, fun hf => by cases hf⟩
            · exact List.forall_mem_cons.mpr ⟨fun _ => rfl, hrest.space⟩
            · rw [List.isChain_cons]
              refine ⟨fun d hd => ?_, hrest.single⟩
              rintro ⟨-, rfl⟩
              exact absurd (hhead rfl _ hd) (by decide)
      · rename_i hb
        obtain ⟨hrest, -⟩ := ih (List.cons.inj h).2
        refine ⟨⟨?_, ?_⟩, fun _ d hd => ?_⟩
        · exact List.forall_mem_cons.mpr ⟨fun hb' => absurd hb' hb, hrest.space⟩
        · rw [List.isChain_cons]
          refine ⟨fun d _ => ?_, hrest.single⟩
          rintro ⟨rfl, -⟩
          exact hb (by decide)
        · cases hd
          simpa using hb

/-- A text is kept when it is trimmed and its blanks are single spaces. -/
structure Kept (text : Str) : Prop extends SingleSpaced text where
  trimmed : trim text = text

/-- The text that is read back. -/
def reread (text : Str) : Str := collapse false (trim text)

theorem reread_eq_self {text : Str} : reread text = text ↔ Kept text := by
  constructor
  · intro h
    have htrim : trim text = text := by
      rw [← h, reread]
      exact trim_collapse text
    rw [reread, htrim] at h
    exact ⟨(singleSpaced_of_collapse h).1, htrim⟩
  · intro h
    rw [reread, h.trimmed]
    exact h.toSingleSpaced.collapse fun hf => by cases hf

theorem printStr_readBack (name text : Str) :
    printStr (.list name (readBack text)) = reread text := by
  rw [readBack, textLine, reread, printStr]
  by_cases h : trim text = []
  · rw [if_pos h, h]
    rfl
  · rw [if_neg h, List.map_singleton]
    exact trim_collapse text

/-! ## Numbers as texts -/

/-- A character of a printed number. -/
def IsNumeral (c : Char) : Prop := c.isDigit = true ∨ c = '-' ∨ c = '.'

theorem IsNumeral.not_trimmed {c : Char} (h : IsNumeral c) : isTrimmed c = false := by
  rcases h with h | rfl | rfl
  · have hne : ∀ d, d.isDigit = false → c ≠ d := by
      rintro d hd rfl
      rw [h] at hd
      cases hd
    simp [isTrimmed, hne ' ' rfl, hne '\t' rfl, hne '\n' rfl, hne '\r' rfl, hne '\x0c' rfl,
      hne '\x0b' rfl]
  · decide
  · decide

theorem IsNumeral.tagless {text : Str} (h : ∀ c ∈ text, IsNumeral c) : Tagless text := by
  have hnot : ∀ d, d.isDigit = false → d ≠ '-' → d ≠ '.' → d ∉ text := by
    intro d hd h1 h2 hmem
    rcases h d hmem with h | h | h
    · rw [h] at hd
      cases hd
    · exact h1 h
    · exact h2 h
  exact ⟨hnot _ rfl (by decide) (by decide), hnot _ rfl (by decide) (by decide),
    hnot _ rfl (by decide) (by decide), hnot _ rfl (by decide) (by decide)⟩

theorem IsNumeral.kept {text : Str} (h : ∀ c ∈ text, IsNumeral c) : Kept text := by
  have hblank : ∀ c ∈ text, isBlank c = false := fun c hc =>
    isBlank_of_isTrimmed (h c hc).not_trimmed
  refine ⟨⟨fun c hc hb => ?_, ?_⟩, ?_⟩
  · rw [hblank c hc] at hb
    cases hb
  · apply List.Pairwise.isChain
    apply List.pairwise_of_forall_mem_list
    rintro c hc d hd ⟨rfl, -⟩
    exact absurd (hblank _ hc) (by decide)
  · exact trim_eq_self (fun c hc => (h c (List.mem_of_head? hc)).not_trimmed)
      fun c hc => (h c (List.mem_of_getLast? hc)).not_trimmed

theorem isNumeral_decimal {n : Nat} {c : Char} (h : c ∈ decimal n) : IsNumeral c :=
  Or.inl (Lib.isDigit_of_mem_decimal h)

theorem isNumeral_signed {i : Int} {c : Char} (h : c ∈ signed i) : IsNumeral c := by
  unfold signed at h
  split at h
  · rcases List.mem_cons.mp h with rfl | h
    · exact Or.inr (Or.inl rfl)
    · exact isNumeral_decimal h
  · exact isNumeral_decimal h

theorem isNumeral_truthStr (r : Record) : ∀ c ∈ r.truthStr, IsNumeral c := by
  intro c hc
  have hc := List.mem_of_mem_take hc
  simp only [formatFloat, List.mem_append, List.mem_cons, List.mem_replicate] at hc
  rcases hc with (hc | hc) | hc | ⟨-, rfl⟩ | hc
  · split at hc
    · exact Or.inr (Or.inl (List.mem_singleton.mp hc))
    · cases hc
  · exact isNumeral_decimal hc
  · exact Or.inr (Or.inr hc)
  · exact Or.inl rfl
  · exact isNumeral_decimal hc

theorem isNumeral_flagsStr (r : Record) : ∀ c ∈ r.flagsStr, IsNumeral c := by
  intro c hc
  have hc := List.mem_of_mem_take hc
  simp only [List.mem_append] at hc
  rcases hc with (((hc | hc) | hc) | hc) | hc <;> exact isNumeral_signed hc

/-! ## Flags -/

/-- A number of one character is a digit. -/
theorem exists_digit {i : Int} (h : (signed i).length = 1) :
    ∃ c, signed i = [c] ∧ c.isDigit = true ∧ i = Int.ofNat (Nat.ofDigitChars 10 [c] 0) := by
  unfold signed at h ⊢
  split at h
  · have := List.length_pos_iff.mpr (Lib.decimal_ne_nil i.natAbs)
    rw [List.length_cons] at h
    omega
  · rename_i hi
    rw [if_neg hi]
    obtain ⟨c, hc⟩ := List.length_eq_one_iff.mp h
    have hdigit : c.isDigit = true := Lib.isDigit_of_mem_decimal (by rw [hc]; simp)
    have hvalue := Lib.ofDigitChars_decimal i.natAbs
    rw [hc] at hvalue
    refine ⟨c, hc, hdigit, ?_⟩
    rw [hvalue, Int.ofNat_eq_natCast]
    omega

theorem scanInt_digits {text : Str} (hne : text ≠ []) (h : ∀ c ∈ text, c.isDigit = true) :
    scanInt text = some (Int.ofNat (Nat.ofDigitChars 10 text 0), []) := by
  obtain ⟨c, rest, rfl⟩ := List.exists_cons_of_ne_nil hne
  have hc := h c List.mem_cons_self
  have htrim : (c :: rest).dropWhile isTrimmed = c :: rest := by
    rw [List.dropWhile_cons_of_neg]
    simp [IsNumeral.not_trimmed (Or.inl hc)]
  have htake : (c :: rest).takeWhile Char.isDigit = c :: rest := List.takeWhile_eq_self_iff.mpr h
  have hdrop : (c :: rest).dropWhile Char.isDigit = [] := List.dropWhile_eq_nil_iff.mpr h
  rw [scanInt, htrim]
  split
  · rename_i heq
    split at heq
    · rename_i hminus
      cases hminus
      cases hc
    · rename_i hplus
      cases hplus
      cases hc
    · cases heq
      simp only [htake, hdrop]
      rfl

/-- The first conversion takes all five digits. -/
theorem readFlags_digits {text : Str} (hlen : text.length = 5)
    (h : ∀ c ∈ text, c.isDigit = true) :
    readFlags text = [Int.ofNat (Nat.ofDigitChars 10 text 0)] := by
  have hne : text ≠ [] := by
    rintro rfl
    cases hlen
  rw [readFlags, if_pos hlen, scanInts, scanInt_digits hne h]
  rfl

/-- No flag is set. -/
def Record.NoFlags (r : Record) : Prop :=
  r.verbFlagWant = 0 ∧ r.verbFlagMust = 0 ∧ r.verbFlagCan = 0 ∧ r.verbFlagMay = 0 ∧
    r.verbFlagShould = 0

/-- The flags of the record are the flags of the list, which is filled with zeros. -/
def Record.HasFlags (r : Record) (flags : List Int) : Prop :=
  flags.getD 0 0 = r.verbFlagWant ∧ flags.getD 1 0 = r.verbFlagMust ∧
    flags.getD 2 0 = r.verbFlagCan ∧ flags.getD 3 0 = r.verbFlagMay ∧
    flags.getD 4 0 = r.verbFlagShould

theorem Record.hasFlags_nil {r : Record} : r.HasFlags [] ↔ r.NoFlags := by
  simp [Record.HasFlags, Record.NoFlags, eq_comm]

theorem Record.NoFlags.flagsStr {r : Record} (h : r.NoFlags) : r.flagsStr = "00000".toList := by
  obtain ⟨h1, h2, h3, h4, h5⟩ := h
  rw [Record.flagsStr, h1, h2, h3, h4, h5]
  rfl

/-- The five flags are printed without a separator: only flags that are not set are read back. -/
theorem Record.hasFlags_iff {r : Record} : r.HasFlags (readFlags r.flagsStr) ↔ r.NoFlags := by
  refine ⟨fun h => ?_, fun h => ?_⟩
  · by_cases hlen : r.flagsStr.length = 5
    · have hpos : ∀ i, 0 < (signed i).length := fun i => List.length_pos_iff.mpr (Lib.signed_ne_nil i)
      have h1 := hpos r.verbFlagWant
      have h2 := hpos r.verbFlagMust
      have h3 := hpos r.verbFlagCan
      have h4 := hpos r.verbFlagMay
      have h5 := hpos r.verbFlagShould
      have hsum := hlen
      simp only [Record.flagsStr, snprintf9, List.length_take, List.length_append] at hsum
      obtain ⟨c1, hc1, hd1, hv1⟩ := @exists_digit r.verbFlagWant (by omega)
      obtain ⟨c2, hc2, hd2, -⟩ := @exists_digit r.verbFlagMust (by omega)
      obtain ⟨c3, hc3, hd3, -⟩ := @exists_digit r.verbFlagCan (by omega)
      obtain ⟨c4, hc4, hd4, -⟩ := @exists_digit r.verbFlagMay (by omega)
      obtain ⟨c5, hc5, hd5, -⟩ := @exists_digit r.verbFlagShould (by omega)
      have htext : r.flagsStr = [c1, c2, c3, c4, c5] := by
        rw [Record.flagsStr, hc1, hc2, hc3, hc4, hc5]
        rfl
      rw [htext, readFlags_digits rfl (by simp [hd1, hd2, hd3, hd4, hd5])] at h
      obtain ⟨hwant, hmust, hcan, hmay, hshould⟩ := h
      refine ⟨?_, hmust.symm, hcan.symm, hmay.symm, hshould.symm⟩
      -- the number of the five digits is the first digit, so that this is zero
      rw [hv1] at hwant ⊢
      have hdigits := Int.ofNat.inj hwant
      simp only [Nat.ofDigitChars_cons, Nat.ofDigitChars_nil] at hdigits ⊢
      rw [Int.ofNat_eq_natCast]
      omega
    · rw [readFlags, if_neg hlen] at h
      exact Record.hasFlags_nil.mp h
  · obtain ⟨h1, h2, h3, h4, h5⟩ := h
    have htext := Record.NoFlags.flagsStr ⟨h1, h2, h3, h4, h5⟩
    rw [htext, Record.HasFlags, h1, h2, h3, h4, h5]
    decide

/-! ## Truth values -/

theorem divHalfEven_mul (m : Nat) {n : Nat} (h : 0 < n) : divHalfEven (m * n) n = m := by
  rw [divHalfEven, Nat.mul_mod_left, if_pos (by omega), Nat.mul_div_cancel _ h]

theorem formatFloat_millionths (m : Nat) : formatFloat (mkRat m 1000000) =
    decimal (m / 1000000) ++ '.' :: (List.replicate (6 - (decimal (m % 1000000)).length) '0' ++
      decimal (m % 1000000)) := by
  have hden := (mkRat m 1000000).den_pos
  have hcross : (mkRat m 1000000).num * (1000000 : Nat) = m * (mkRat m 1000000).den :=
    (Rat.mkRat_eq_iff (mkRat m 1000000).den_nz (by decide)).mp (Rat.mkRat_self _)
  have hsign : ¬ (mkRat m 1000000).num < 0 := by
    intro hneg
    have hnonneg : (0 : Int) ≤ m * (mkRat m 1000000).den := Int.mul_nonneg (by omega) (by omega)
    omega
  have hmillion : (mkRat m 1000000).num.natAbs * 1000000 = m * (mkRat m 1000000).den := by
    apply Int.ofNat.inj
    rw [Int.ofNat_eq_natCast, Int.ofNat_eq_natCast, Int.natCast_mul, Int.natCast_mul, ← hcross,
      Int.natAbs_of_nonneg (Int.not_lt.mp hsign)]
  rw [formatFloat, hmillion, divHalfEven_mul m hden, if_neg hsign]
  rfl

theorem scanFloat_point {whole fraction : Str} (hne : whole ≠ [])
    (hwhole : ∀ c ∈ whole, c.isDigit = true) (hfraction : ∀ c ∈ fraction, c.isDigit = true) :
    scanFloat (whole ++ '.' :: fraction) =
      mkRat (Nat.ofDigitChars 10 (whole ++ fraction) 0) (Nat.pow 10 fraction.length) := by
  have htake : (whole ++ '.' :: fraction).takeWhile Char.isDigit = whole := by
    rw [List.takeWhile_append_of_pos hwhole]
    simp
  have hdrop : (whole ++ '.' :: fraction).dropWhile Char.isDigit = '.' :: fraction := by
    rw [List.dropWhile_append_of_pos hwhole]
    simp
  have hall : fraction.takeWhile Char.isDigit = fraction :=
    List.takeWhile_eq_self_iff.mpr hfraction
  rw [scanFloat]
  · simp only [htake, hdrop, hall]
    rfl
  · intro text hminus
    obtain ⟨c, rest, rfl⟩ := List.exists_cons_of_ne_nil hne
    cases hminus
    exact absurd (hwhole '-' List.mem_cons_self) (by decide)

/-- A truth value below ten with six decimals is not cut. -/
theorem scanFloat_millionths {m : Nat} (hm : m < 10000000) :
    scanFloat (snprintf9 (formatFloat (mkRat m 1000000))) = mkRat m 1000000 := by
  have hwhole : (decimal (m / 1000000)).length = 1 := by
    have hle : (decimal (m / 1000000)).length ≤ 1 :=
      (Nat.length_toDigits_le_iff (by decide) (by decide)).mpr (by omega)
    have := List.length_pos_iff.mpr (Lib.decimal_ne_nil (m / 1000000))
    omega
  have hfraction : (decimal (m % 1000000)).length ≤ 6 :=
    (Nat.length_toDigits_le_iff (by decide) (by decide)).mpr (by omega)
  have hlen : (List.replicate (6 - (decimal (m % 1000000)).length) '0' ++
      decimal (m % 1000000)).length = 6 := by
    rw [List.length_append, List.length_replicate]
    omega
  have hdigits : ∀ c ∈ List.replicate (6 - (decimal (m % 1000000)).length) '0' ++
      decimal (m % 1000000), c.isDigit = true := by
    intro c hc
    rcases List.mem_append.mp hc with hc | hc
    · rw [(List.mem_replicate.mp hc).2]
      rfl
    · exact Lib.isDigit_of_mem_decimal hc
  have hvalue : Nat.ofDigitChars 10 (decimal (m / 1000000) ++
      (List.replicate (6 - (decimal (m % 1000000)).length) '0' ++
        decimal (m % 1000000))) 0 = m := by
    rw [Nat.ofDigitChars_append, Lib.ofDigitChars_decimal, Nat.ofDigitChars_eq_ofDigitChars_zero,
      hlen, Nat.ofDigitChars_append, Nat.ofDigitChars_replicate_zero, Nat.mul_zero,
      Lib.ofDigitChars_decimal]
    omega
  have htext : (decimal (m / 1000000) ++ '.' :: (List.replicate
      (6 - (decimal (m % 1000000)).length) '0' ++ decimal (m % 1000000))).length = 8 := by
    rw [List.length_append, List.length_cons, hwhole, hlen]
  rw [formatFloat_millionths, snprintf9, List.take_of_length_le (Nat.le_of_eq htext),
    scanFloat_point (Lib.decimal_ne_nil _) (fun c hc => Lib.isDigit_of_mem_decimal hc) hdigits,
    hvalue, hlen]

end Freehal.Hal2012
