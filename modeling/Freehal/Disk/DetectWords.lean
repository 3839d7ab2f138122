import Freehal.Disk.Engine
import Freehal.Lib.Block
import Freehal.Lib.Filling

/-!
# The words of a fact in their array

`detect_words` of `hal2012-disk.c` on the array that its caller allocates. A write outside of the
array has no result.
-/

namespace Freehal.Disk

open Lib (Block Fits fill fillAll fillAll_of_le limit_le_fillAll length_le_fillAll
  length_fillAll_le_iff)
open Universal (Config isATrivialWord)

/-- The array `words` and the counter `*num_of_words`. -/
structure WordArray where
  words : Block (Option Str)
  numOfWords : Nat

/-- The texts that `detect_words` is given, null pointers among them. -/
structure FieldTexts where
  rVerbs : Option Str
  rSubjects : Option Str
  rObjects : Option Str
  rAdverbs : Option Str
  rExtra : Option Str

namespace FieldTexts

def verbs (r : FieldTexts) : Str := r.rVerbs.getD []

def subj (r : FieldTexts) : Str := r.rSubjects.getD []

def obj (r : FieldTexts) : Str := r.rObjects.getD []

def advs (r : FieldTexts) : Str := r.rAdverbs.getD []

def extra (r : FieldTexts) : Str := r.rExtra.getD []

/-- The texts in the order of the loops. -/
def texts (r : FieldTexts) : List Str := [r.verbs, r.subj, r.obj, r.advs, r.extra]

end FieldTexts

namespace WordArray

/-- `calloc(501*sizeof(char*), 1)` in `gen_sql_add_word_fact_relations` -/
def allocated : Block (Option Str) := .calloc 501 none

def put (w : WordArray) (word : Str) : Option WordArray := do
  return ⟨← w.words.write w.numOfWords (some word), w.numOfWords + 1⟩

def putIf (condition : Bool) (w : WordArray) (word : Str) : Option WordArray :=
  if condition then w.put word else some w

/-- One of the five loops. The limit is tested behind the write. -/
def putTokens (cfg : Config) : WordArray → List Str → Option WordArray
  | w, [] => some w
  | w, token :: tokens =>
      if token = ['0'] then some w
      else if isATrivialWord cfg token then putTokens cfg w tokens
      else do
        let w ← w.put token
        if w.numOfWords ≥ 500 then return w
        putTokens cfg w tokens

/-- Both the verbs and the subjects are written if the subjects are not "0". -/
def detectWords (cfg : Config) (words : Block (Option Str)) (r : FieldTexts) :
    Option WordArray := do
  let words ← words.write 0 (some ['0'])
  let w ← putIf (r.subj ≠ ['0']) ⟨words, 1⟩ r.verbs
  let w ← putIf (r.subj ≠ ['0']) w r.subj
  let w ← putIf (r.obj ≠ ['0']) w r.obj
  let w ← putIf (r.advs ≠ ['0']) w r.advs
  let w ← putTokens cfg w (strtok r.verbs)
  let w ← putTokens cfg w (strtok r.subj)
  let w ← putTokens cfg w (strtok r.obj)
  let w ← putTokens cfg w (strtok r.advs)
  let w ← putTokens cfg w (strtok r.extra)
  return { w with numOfWords := w.numOfWords - 1 }

/-- What the caller writes behind the words. -/
def addMarker (w : WordArray) : Option WordArray := do
  return ⟨← w.words.write (w.numOfWords + 1 : Nat) (some conditionalMarker), w.numOfWords + 1⟩

end WordArray

/-! ## The words as a list -/

/-- The entries before the loops. -/
def FieldTexts.whole (r : FieldTexts) : List Str :=
  [['0']] ++ (if r.subj ≠ ['0'] then [r.verbs, r.subj] else [])
    ++ (if r.obj ≠ ['0'] then [r.obj] else []) ++ (if r.advs ≠ ['0'] then [r.advs] else [])

def FieldTexts.detected (cfg : Config) (r : FieldTexts) : List Str :=
  r.texts.foldl (fun words text => detectTokens cfg words (strtok text)) r.whole

/-- The tokens before the first "0" that are not trivial. -/
def shownTokens (cfg : Config) (text : Str) : List Str :=
  ((strtok text).takeWhile (· ≠ ['0'])).filter (!isATrivialWord cfg ·)

/-- The tokens from the first "0" on that are not trivial. -/
def hiddenTokens (cfg : Config) (text : Str) : List Str :=
  ((strtok text).dropWhile (· ≠ ['0'])).filter (!isATrivialWord cfg ·)

theorem mem_shown_or_hidden {cfg : Config} {text token : Str} :
    (token ∈ strtok text ∧ isATrivialWord cfg token = false)
      ↔ token ∈ shownTokens cfg text ∨ token ∈ hiddenTokens cfg text := by
  have hsplit := List.takeWhile_append_dropWhile (p := fun t : Str => decide (t ≠ ['0']))
    (l := strtok text)
  rw [← hsplit]
  simp only [shownTokens, hiddenTokens, hsplit, List.mem_filter, Bool.not_eq_true']
  rw [← or_and_right, ← List.mem_append, hsplit]

theorem detectTokens_eq_fill (cfg : Config) (words tokens : List Str) :
    detectTokens cfg words tokens
      = fill 500 words ((tokens.takeWhile (· ≠ ['0'])).filter (!isATrivialWord cfg ·)) := by
  induction tokens generalizing words with
  | nil => simp [detectTokens, fill]
  | cons token tokens ih =>
      unfold detectTokens
      by_cases hzero : token = ['0']
      · simp [hzero, fill]
      · by_cases htrivial : isATrivialWord cfg token = true
        · simp [hzero, htrivial, ih]
        · by_cases hlimit : words.length + 1 ≥ 500
          · have hone : max 1 (500 - words.length) = 1 := by omega
            simp [hzero, htrivial, hlimit, fill, hone]
          · have hmax : max 1 (500 - words.length) = max 1 (500 - (words.length + 1)) + 1 := by
              omega
            simp [hzero, htrivial, hlimit, ih, fill, hmax]

theorem length_le_detectTokens (cfg : Config) (words tokens : List Str) :
    words.length ≤ (detectTokens cfg words tokens).length := by
  rw [detectTokens_eq_fill, fill, List.length_append]
  omega

theorem detected_eq_fillAll (cfg : Config) (r : FieldTexts) :
    r.detected cfg = fillAll 500 r.whole (r.texts.map (shownTokens cfg)) := by
  simp only [FieldTexts.detected, fillAll, List.foldl_map]
  congr 1
  funext words text
  exact detectTokens_eq_fill cfg words (strtok text)

theorem length_whole_le (r : FieldTexts) : r.whole.length ≤ 5 := by
  unfold FieldTexts.whole
  split <;> split <;> split <;> simp

/-! ## The array against the list -/

namespace WordArray

/-- The array holds the words in their order. -/
structure Lists (w : WordArray) (words : List Str) : Prop where
  size : w.words.size = 501
  count : w.numOfWords = words.length
  room : words.length ≤ 501
  entries : ∀ (i : Nat) (h : i < words.length), w.words.read i = some (some words[i])

/-- The result of a step: the words in the array, or more words than fit. -/
inductive Outcome (words : List Str) : Option WordArray → Prop where
  | inside {w : WordArray} : w.Lists words → Outcome words (some w)
  | outside : 501 < words.length → Outcome words none

variable {cfg : Config} {w : WordArray} {words words' : List Str} {word : Str}

theorem Outcome.bind {o : Option WordArray} {f : WordArray → Option WordArray}
    (h : Outcome words o) (hlen : words.length ≤ words'.length)
    (hf : ∀ w, w.Lists words → Outcome words' (f w)) : Outcome words' (o >>= f) := by
  cases h with
  | outside h => exact .outside (Nat.lt_of_lt_of_le h hlen)
  | inside h => exact hf _ h

theorem outcome_put (h : w.Lists words) (word : Str) : Outcome (words ++ [word]) (w.put word) := by
  have hcount := h.count
  have hsize := h.size
  by_cases hroom : words.length < 501
  · obtain ⟨b, hb⟩ := @Block.exists_write _ w.words (some word) w.numOfWords (by omega) (by omega)
    simp only [put, hb, Option.pure_def, Option.bind_eq_bind, Option.bind_some]
    refine .inside ⟨(Block.size_write hb).trans h.size, by simp [h.count], by simp; omega, ?_⟩
    intro i hi
    by_cases hlast : i < words.length
    · rw [Block.read_write_of_ne hb (by omega), h.entries i hlast]
      simp [List.getElem_append_left hlast]
    · obtain rfl : i = w.numOfWords := by
        simp only [List.length_append, List.length_singleton] at hi
        omega
      rw [Block.read_write_self hb]
      simp [hcount]
  · have hnone : w.words.write w.numOfWords (some word) = none := by
      simp only [Block.size] at hsize
      simp only [Block.write]
      rw [if_neg (by omega)]
    have hroom' := h.room
    simp only [put, hnone, Option.pure_def, Option.bind_eq_bind, Option.bind_none]
    refine .outside ?_
    rw [List.length_append, List.length_singleton]
    omega

theorem outcome_putIf (condition : Bool) (h : w.Lists words) (word : Str) :
    Outcome (words ++ if condition then [word] else []) (putIf condition w word) := by
  cases condition with
  | true => exact outcome_put h word
  | false => exact .inside (by simpa using h)

theorem outcome_putTokens (tokens : List Str) (h : w.Lists words) :
    Outcome (detectTokens cfg words tokens) (putTokens cfg w tokens) := by
  induction tokens generalizing w words with
  | nil => exact .inside h
  | cons token tokens ih =>
      unfold detectTokens putTokens
      by_cases hzero : token = ['0']
      · rw [if_pos hzero, if_pos hzero]
        exact .inside h
      rw [if_neg hzero, if_neg hzero]
      by_cases htrivial : isATrivialWord cfg token = true
      · rw [if_pos htrivial, if_pos htrivial]
        exact ih h
      rw [if_neg htrivial, if_neg htrivial]
      have hput := outcome_put h token
      -- the counter behind the write is the number of the words, so both sides stop together
      by_cases hlimit : words.length + 1 ≥ 500
      · rw [if_pos hlimit]
        refine hput.bind (Nat.le_refl _) ?_
        intro w' h'
        have hcount : w'.numOfWords = words.length + 1 := by simp [h'.count]
        rw [if_pos (show w'.numOfWords ≥ 500 by omega)]
        exact .inside h'
      · rw [if_neg hlimit]
        refine hput.bind ?_ ?_
        · exact length_le_detectTokens cfg _ tokens
        · intro w' h'
          have hcount : w'.numOfWords = words.length + 1 := by simp [h'.count]
          rw [if_neg (show ¬ w'.numOfWords ≥ 500 by omega)]
          exact ih h'

theorem outcome_allocated (words : Block (Option Str)) (h : words.size = 501) :
    ∃ b, words.write 0 (some ['0']) = some b ∧ Lists ⟨b, 1⟩ [['0']] := by
  obtain ⟨b, hb⟩ := @Block.exists_write _ words (some ['0']) 0 (by omega) (by omega)
  refine ⟨b, hb, (Block.size_write hb).trans h, rfl, by simp, ?_⟩
  intro i hi
  obtain rfl : i = 0 := by simpa using hi
  exact Block.read_write_self hb

theorem whole_eq (r : FieldTexts) :
    r.whole = [['0']] ++ (if r.subj ≠ ['0'] then [r.verbs] else [])
      ++ (if r.subj ≠ ['0'] then [r.subj] else []) ++ (if r.obj ≠ ['0'] then [r.obj] else [])
      ++ (if r.advs ≠ ['0'] then [r.advs] else []) := by
  unfold FieldTexts.whole
  split <;> simp

/-- The array is filled with the words of the list, and there is no result exactly when they do
not fit. The counter ends one before the number of the words. -/
theorem outcome_detectWords (cfg : Config) (r : FieldTexts) :
    Outcome (r.detected cfg)
      ((detectWords cfg allocated r).map fun w => { w with numOfWords := w.numOfWords + 1 }) := by
  obtain ⟨b, hb, h0⟩ := outcome_allocated allocated Block.size_calloc
  have hwhole : Outcome r.whole (do
      let w ← putIf (r.subj ≠ ['0']) ⟨b, 1⟩ r.verbs
      let w ← putIf (r.subj ≠ ['0']) w r.subj
      let w ← putIf (r.obj ≠ ['0']) w r.obj
      putIf (r.advs ≠ ['0']) w r.advs) := by
    have h1 := outcome_putIf (r.subj ≠ ['0']) h0 r.verbs
    have h2 := h1.bind (by simp) fun w h => outcome_putIf (r.subj ≠ ['0']) h r.subj
    have h3 := h2.bind (by simp) fun w h => outcome_putIf (r.obj ≠ ['0']) h r.obj
    have h4 := h3.bind (by simp) fun w h => outcome_putIf (r.advs ≠ ['0']) h r.advs
    rw [whole_eq]
    simpa only [Option.bind_eq_bind, Option.bind_assoc, decide_eq_true_eq] using h4
  have step : ∀ {words : List Str} (text : Str) {o : Option WordArray}, Outcome words o →
      Outcome (detectTokens cfg words (strtok text))
        (o >>= fun w => putTokens cfg w (strtok text)) := by
    intro words text o h
    exact h.bind (length_le_detectTokens cfg words _) fun w h => outcome_putTokens _ h
  have hloops := step r.extra (step r.advs (step r.obj (step r.subj (step r.verbs hwhole))))
  have hdetected : r.detected cfg = detectTokens cfg (detectTokens cfg (detectTokens cfg
      (detectTokens cfg (detectTokens cfg r.whole (strtok r.verbs)) (strtok r.subj))
        (strtok r.obj)) (strtok r.advs)) (strtok r.extra) := rfl
  rw [← hdetected] at hloops
  have hpos : 0 < (r.detected cfg).length := by
    have hwhole := length_le_fillAll 500 r.whole (r.texts.map (shownTokens cfg))
    rw [← detected_eq_fillAll] at hwhole
    have hzero : 0 < r.whole.length := by simp [FieldTexts.whole]
    omega
  have hends := hloops.bind (Nat.le_refl _) fun w h =>
    show Outcome (r.detected cfg) (some { w with numOfWords := w.numOfWords - 1 + 1 }) from by
      have hcount := h.count
      exact .inside ⟨h.size, by simp only; omega, h.room, h.entries⟩
  simpa only [detectWords, hb, Option.bind_eq_bind, Option.bind_some, Option.bind_assoc,
    Option.pure_def, Option.map_bind, Function.comp_def, Option.map_some] using hends

theorem Lists.exists_read_iff (h : w.Lists words) (word : Str) :
    (∃ i : Nat, i < w.numOfWords ∧ w.words.read i = some (some word)) ↔ word ∈ words := by
  rw [List.mem_iff_getElem, h.count]
  constructor
  · rintro ⟨i, hi, hread⟩
    rw [h.entries i hi, Option.some_inj, Option.some_inj] at hread
    exact ⟨i, hi, hread⟩
  · rintro ⟨i, hi, rfl⟩
    exact ⟨i, hi, h.entries i hi⟩

/-- A call either has all words of the list in its array or writes behind the array. -/
theorem detectWords_cases (cfg : Config) (r : FieldTexts) :
    (∃ w, detectWords cfg allocated r = some w
        ∧ Lists { w with numOfWords := w.numOfWords + 1 } (r.detected cfg))
      ∨ (detectWords cfg allocated r = none ∧ 501 < (r.detected cfg).length) := by
  have h := outcome_detectWords cfg r
  cases hcall : detectWords cfg allocated r with
  | none =>
      rw [hcall, Option.map_none] at h
      cases h with
      | outside h => exact .inr ⟨rfl, h⟩
  | some w =>
      rw [hcall, Option.map_some] at h
      cases h with
      | inside h => exact .inl ⟨w, rfl, h⟩

/-! ## The caller -/

/-- The marker has a place as long as the words leave one entry free. -/
theorem addMarker_isSome_iff (cfg : Config) (r : FieldTexts) :
    (detectWords cfg allocated r >>= addMarker).isSome ↔ (r.detected cfg).length ≤ 500 := by
  rcases detectWords_cases cfg r with ⟨w, hcall, h⟩ | ⟨hcall, hlen⟩
  · have hsize : w.words.cells.length = 501 := h.size
    have hcount : w.numOfWords + 1 = (r.detected cfg).length := h.count
    rw [hcall, ← hcount]
    simp only [Option.bind_eq_bind, Option.bind_some, addMarker, Block.write, hsize]
    by_cases hroom : w.numOfWords + 1 ≤ 500
    · rw [if_pos (by omega)]
      simpa using hroom
    · rw [if_neg (by omega)]
      simpa using hroom
  · rw [hcall]
    simp only [Option.bind_eq_bind, Option.bind_none, Option.isSome_none, Bool.false_eq_true,
      false_iff]
    omega

/-- The caller passes no extra text, and its words are those that are stored with a fact. -/
theorem detected_of_extra_nil (cfg : Config) {r : FieldTexts} (h : r.extra = []) :
    r.detected cfg = Disk.detectWords cfg r.verbs r.subj r.obj r.advs := by
  simp [FieldTexts.detected, FieldTexts.texts, FieldTexts.whole, Disk.detectWords, h, strtok,
    detectTokens]

/-! ## Which words are detected -/

/-- No write is outside of the array, and below the limit every token that is not trivial is
among the words. -/
def DetectsAll (cfg : Config) (r : FieldTexts) : Prop :=
  ∃ w, detectWords cfg allocated r = some w ∧
    (w.numOfWords + 1 < 500 → ∀ text ∈ r.texts, ∀ token ∈ strtok text,
      isATrivialWord cfg token = false →
        ∃ i : Nat, i ≤ w.numOfWords ∧ w.words.read i = some (some token))

/-- What the loops write if none of them meets the limit, behind the whole texts. -/
def shown (cfg : Config) (r : FieldTexts) : List (List Str) := r.texts.map (shownTokens cfg)

/-- At most one field with a token to write follows the one where the words reach the limit, and
below the limit no token is hidden behind a "0" that is not written anyway. -/
structure Detectable (cfg : Config) (r : FieldTexts) : Prop where
  fits : Fits 500 r.whole.length (shown cfg r)
  unhidden : r.whole.length + (shown cfg r).flatten.length < 500 →
    ∀ text ∈ r.texts, ∀ token ∈ hiddenTokens cfg text, token ∈ r.whole ++ (shown cfg r).flatten

theorem length_detected_lt_iff (cfg : Config) (r : FieldTexts) :
    (r.detected cfg).length < 500 ↔ r.whole.length + (shown cfg r).flatten.length < 500 := by
  rw [detected_eq_fillAll]
  by_cases h : r.whole.length + (shown cfg r).flatten.length < 500
  · have hall := fillAll_of_le (Nat.le_of_lt h)
    rw [shown] at h hall
    rw [hall, List.length_append, shown]
  · have hlimit := @limit_le_fillAll _ 500 r.whole (shown cfg r) (by omega)
    rw [shown] at h hlimit
    rw [shown]
    omega

theorem detected_of_lt {cfg : Config} {r : FieldTexts}
    (h : r.whole.length + (shown cfg r).flatten.length < 500) :
    r.detected cfg = r.whole ++ (shown cfg r).flatten := by
  rw [detected_eq_fillAll, ← shown]
  exact fillAll_of_le (Nat.le_of_lt h)

theorem mem_shown {cfg : Config} {r : FieldTexts} {text token : Str} (htext : text ∈ r.texts)
    (h : token ∈ shownTokens cfg text) : token ∈ (shown cfg r).flatten :=
  List.mem_flatten.mpr ⟨_, List.mem_map_of_mem htext, h⟩

theorem detectsAll_iff (cfg : Config) (r : FieldTexts) : DetectsAll cfg r ↔ Detectable cfg r := by
  have hfits : (r.detected cfg).length ≤ 501 ↔ Fits 500 r.whole.length (shown cfg r) := by
    have := length_whole_le r
    rw [detected_eq_fillAll, ← shown]
    exact length_fillAll_le_iff (by omega)
  rcases detectWords_cases cfg r with ⟨w, hcall, h⟩ | ⟨hcall, hlen⟩
  · have hcount : w.numOfWords + 1 = (r.detected cfg).length := h.count
    constructor
    · rintro ⟨w', hcall', hall⟩
      obtain rfl : w = w' := by rw [hcall] at hcall'; exact Option.some.inj hcall'
      refine ⟨hfits.mp h.room, fun hlt text htext token htoken => ?_⟩
      obtain ⟨hmem, htrivial⟩ := mem_shown_or_hidden.mpr (.inr htoken)
      obtain ⟨i, hi, hread⟩ := hall (by rw [hcount, length_detected_lt_iff]; exact hlt) text htext
        token hmem htrivial
      rw [← detected_of_lt hlt, ← h.exists_read_iff]
      exact ⟨i, by simp only; omega, hread⟩
    · intro hdet
      refine ⟨w, hcall, fun hlt text htext token htoken htrivial => ?_⟩
      rw [hcount, length_detected_lt_iff] at hlt
      have hmem : token ∈ r.detected cfg := by
        rw [detected_of_lt hlt]
        rcases mem_shown_or_hidden.mp ⟨htoken, htrivial⟩ with hshown | hhidden
        · exact List.mem_append_right _ (mem_shown htext hshown)
        · exact hdet.unhidden hlt text htext token hhidden
      obtain ⟨i, hi, hread⟩ := (h.exists_read_iff token).mpr hmem
      exact ⟨i, by simp only at hi; omega, hread⟩
  · constructor
    · rintro ⟨w, hcall', -⟩
      rw [hcall] at hcall'
      cases hcall'
    · intro hdet
      have := hfits.mpr hdet.fits
      omega

/-- A "0" in the subjects. -/
def zeroSubject : FieldTexts :=
  ⟨some "ist".toList, some "haus 0 baum".toList, some "gross".toList, some [], some []⟩

/-- Verbs of five hundred words before a subject and an object. -/
def longVerbs : FieldTexts :=
  ⟨some (List.replicate 500 "x ".toList).flatten, some "haus".toList, some "gross".toList,
    some [], some []⟩

/-- The token behind the "0" is lost, and a long text makes the later loops write behind the
array. -/
theorem detectWords_misses :
    ¬ DetectsAll ⟨true, "de".toList⟩ zeroSubject
      ∧ detectWords ⟨true, "de".toList⟩ allocated longVerbs = none := by
  constructor
  · rintro ⟨w, hcall, hall⟩
    rcases detectWords_cases ⟨true, "de".toList⟩ zeroSubject with ⟨w', hcall', h⟩ | ⟨hcall', -⟩
    · obtain rfl : w = w' := by rw [hcall] at hcall'; exact Option.some.inj hcall'
      have hcount : w.numOfWords + 1 = (zeroSubject.detected ⟨true, "de".toList⟩).length := h.count
      have hlt : (zeroSubject.detected ⟨true, "de".toList⟩).length < 500 := by decide
      obtain ⟨i, hi, hread⟩ := hall (by omega) zeroSubject.subj (by decide) "baum".toList
        (by decide) (by decide)
      have hmem := (h.exists_read_iff "baum".toList).mp ⟨i, by simp only; omega, hread⟩
      exact absurd hmem (by decide)
    · rw [hcall] at hcall'
      cases hcall'
  · rcases detectWords_cases ⟨true, "de".toList⟩ longVerbs with ⟨w', -, h⟩ | ⟨hcall, -⟩
    · have hlong : 501 < (longVerbs.detected ⟨true, "de".toList⟩).length := by decide +kernel
      exact absurd h.room (by omega)
    · exact hcall

end WordArray

end Freehal.Disk
