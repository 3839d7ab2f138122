import Freehal.Lib.Best
import Freehal.Lib.Fold
import Freehal.Pos.Affixes
import Freehal.Pos.Tags
import Freehal.Reasoning.XmlObj
import Mathlib.Algebra.Group.Nat.Defs

/-!
# Guessing the tags of a word

`StandardTagger.guess`. What `toLowerCase` does is a parameter.
-/

namespace Freehal.Pos

open Lib (HashMap HashOrder bestFrom bestFrom_isSome bestFrom_mem bestFrom_ne_none foldl_induction)
open Reasoning (newWord)
open Xml (JString jtext)

/-! ## The ratings -/

/-- What `posToRating` and `posToCount` hold for a category. They have the same keys. -/
structure Rating where
  rating : Int64
  count : Int64

section

variable (toLowerCase : JString → JString) (word : JString)

def isSameCase (valWord : JString) : Bool :=
  let wordIsLower := decide (word = toLowerCase word)
  let valWordIsLower := decide (valWord = toLowerCase valWord)
  !((wordIsLower && !valWordIsLower) || (!wordIsLower && valWordIsLower))

def rateWord (valWord : JString) (r : Rating) : Rating :=
  (sharedValues word valWord).foldl
    (fun r value => ⟨r.rating + Int64.ofNat value, r.count + 1⟩) r

def rateEntry (posToRating : HashMap Str Rating) (entry : JString × Tags) : HashMap Str Rating :=
  match entry.2.category with
  | none => posToRating
  | some valType =>
      if !isGuessed valType || !isSameCase toLowerCase word entry.1 then posToRating
      else posToRating.put valType
        (rateWord word entry.1 ((posToRating.get valType).getD ⟨0, 0⟩))

def rate (entries : List (JString × Tags)) : HashMap Str Rating :=
  entries.foldl (rateEntry toLowerCase word) []

end

/-! ## The best category -/

inductive Failure where
  | divisionByZero
  | rejectedWord
deriving DecidableEq

/-- Nothing where the division fails. -/
def scoreOf (r : Rating) : Option Int64 :=
  if r.count = 0 then none else some (100 * (r.rating * r.rating) / r.count)

def isBetter (score bestScore : Int64) : Bool := score > bestScore || bestScore = 0

/-- The tags and the dictionary after the call. -/
def guess (ord : HashOrder) (toLowerCase : JString → JString) (staticTags : HashMap JString Tags)
    (word : JString) : Except Failure (Option Tags × HashMap JString Tags) :=
  let posToRating := rate toLowerCase word (ord.enum staticTags)
  match bestFrom scoreOf isBetter (ord.enum posToRating) none 0 with
  | none => .error .divisionByZero
  | some none => .ok (none, staticTags)
  | some (some bestCategory) =>
      let tags : Tags := ⟨some bestCategory, none⟩
      if newWord word = none then .error .rejectedWord
      else .ok (some tags, staticTags.put word tags)

/-! ## What is counted -/

variable {toLowerCase : JString → JString} {word : JString} {category : Str}

/-- The words of the dictionary with their categories. -/
def categories (entries : List (JString × Tags)) : List (JString × Option Str) :=
  entries.map fun e => (e.1, e.2.category)

theorem rateWord_count (valWord : JString) (r : Rating) :
    (rateWord word valWord r).count = r.count + Int64.ofNat (sharedValues word valWord).length := by
  rw [rateWord]
  generalize sharedValues word valWord = values
  induction values generalizing r with
  | nil => simp
  | cons value values ih =>
      rw [List.foldl_cons, ih, List.length_cons, Nat.add_comm, Int64.ofNat_add, Int64.add_assoc]
      rfl

/-- The entry is counted for the category. -/
def isCounted (toLowerCase : JString → JString) (word : JString) (category : Str)
    (e : JString × Tags) : Bool :=
  isGuessed category && e.2.category = some category && isSameCase toLowerCase word e.1

theorem rateEntry_get (posToRating : HashMap Str Rating) (e : JString × Tags) :
    (rateEntry toLowerCase word posToRating e).get category =
      if isCounted toLowerCase word category e then
        some (rateWord word e.1 ((posToRating.get category).getD ⟨0, 0⟩))
      else posToRating.get category := by
  unfold rateEntry isCounted
  cases hcategory : e.2.category with
  | none => simp
  | some valType =>
      simp only []
      by_cases hsame : category = valType
      · subst hsame
        cases isGuessed category <;> cases isSameCase toLowerCase word e.1 <;>
          simp [HashMap.get_put]
      · cases isGuessed valType <;> cases isSameCase toLowerCase word e.1 <;>
          simp [HashMap.get_put, hsame, Ne.symm hsame]

/-- The counter of a category after some entries. -/
def countAfter (toLowerCase : JString → JString) (word : JString) (category : Str)
    (entries : List (JString × Tags)) : Option Int64 :=
  if isGuessed category = true ∧
      candidates (isSameCase toLowerCase word) category (categories entries) ≠ [] then
    some (Int64.ofNat
      (countedValues word (isSameCase toLowerCase word) category (categories entries)).length)
  else none

theorem countAfter_getD (hguessed : isGuessed category = true) (entries : List (JString × Tags)) :
    (countAfter toLowerCase word category entries).getD 0 = Int64.ofNat
      (countedValues word (isSameCase toLowerCase word) category (categories entries)).length := by
  rw [countAfter]
  by_cases hnil : candidates (isSameCase toLowerCase word) category (categories entries) = []
  · simp [countedValues, hnil]
  · simp [hguessed, hnil]

theorem countAfter_append (entries : List (JString × Tags)) (e : JString × Tags) :
    countAfter toLowerCase word category (entries ++ [e]) =
      if isCounted toLowerCase word category e then
        some ((countAfter toLowerCase word category entries).getD 0 +
          Int64.ofNat (sharedValues word e.1).length)
      else countAfter toLowerCase word category entries := by
  have hcategories : categories (entries ++ [e]) = categories entries ++ [(e.1, e.2.category)] :=
    List.map_append
  by_cases hguessed : isGuessed category = true
  · rw [countAfter_getD hguessed, countAfter, hcategories, countedValues_append,
      candidates_append, countedValues.eq_def _ _ _ [_], candidates_singleton]
    by_cases hcounted : e.2.category = some category ∧ isSameCase toLowerCase word e.1 = true
    · simp [isCounted, hguessed, hcounted, Int64.ofNat_add]
    · have hnot : isCounted toLowerCase word category e = false := by
        simpa [isCounted, hguessed] using hcounted
      rw [if_neg hcounted, hnot]
      simp [countAfter]
  · simp [countAfter, isCounted, hguessed]

theorem rate_count (entries : List (JString × Tags)) :
    ((rate toLowerCase word entries).get category).map (·.count) =
      countAfter toLowerCase word category entries := by
  induction entries using List.reverseRecOn with
  | nil => simp [rate, HashMap.get, countAfter, candidates, categories]
  | append_singleton entries e ih =>
      have hstep : rate toLowerCase word (entries ++ [e]) =
          rateEntry toLowerCase word (rate toLowerCase word entries) e := by
        rw [rate, List.foldl_append]
        rfl
      rw [hstep, rateEntry_get, countAfter_append, ← ih]
      split
      · rw [Option.map_some, rateWord_count]
        cases (rate toLowerCase word entries).get category <;> rfl
      · rfl

theorem countAfter_enum (ord : HashOrder) (entries : List (JString × Tags)) :
    countAfter toLowerCase word category (ord.enum entries) =
      countAfter toLowerCase word category entries := by
  have hperm : (categories (ord.enum entries)).Perm (categories entries) :=
    (ord.perm entries).map _
  simp only [countAfter, ← List.length_pos_iff, (candidates_perm hperm).length_eq,
    (countedValues_perm hperm).length_eq]

theorem unique_rate (entries : List (JString × Tags)) : (rate toLowerCase word entries).Unique := by
  refine foldl_induction HashMap.Unique.nil fun m e _ hm => ?_
  unfold rateEntry
  split
  · exact hm
  · split
    · exact hm
    · exact HashMap.Unique.put hm _ _

/-- The categories that are rated, and their counters. -/
theorem mem_rate_iff (ord : HashOrder) (staticTags : HashMap JString Tags) (count : Int64) :
    (∃ r, (category, r) ∈ ord.enum (rate toLowerCase word (ord.enum staticTags)) ∧
        r.count = count) ↔
      countAfter toLowerCase word category staticTags = some count := by
  rw [← countAfter_enum ord, ← rate_count, Option.map_eq_some_iff]
  refine exists_congr fun r => and_congr_left fun _ => ?_
  rw [ord.mem_enum]
  exact ⟨(unique_rate _).get, HashMap.mem_of_get⟩

/-! ## The division -/

theorem ofNat_eq_zero_iff (n : Nat) : Int64.ofNat n = 0 ↔ 2 ^ 64 ∣ n := by
  rw [← Int64.toBitVec_inj, ← BitVec.toNat_inj]
  simp
  omega

/-- The result of a call that returns: no tags, or tags of a category in the dictionary, which holds
them for the word afterwards. -/
def Guesses (staticTags : HashMap JString Tags) (word : JString) :
    Except Failure (Option Tags × HashMap JString Tags) → Prop
  | .error _ => False
  | .ok (none, _) => True
  | .ok (some tags, after) =>
      after.get word = some tags ∧ tags.category.isSome ∧
        ∃ e ∈ staticTags, e.2.category = tags.category

/-- In every category that is rated some end or beginning is counted. -/
def SharesAffixes (toLowerCase : JString → JString) (word : JString)
    (staticTags : HashMap JString Tags) : Prop :=
  ∀ category, isGuessed category = true →
    candidates (isSameCase toLowerCase word) category (categories staticTags) ≠ [] →
      ¬ 2 ^ 64 ∣
        (countedValues word (isSameCase toLowerCase word) category (categories staticTags)).length

/-- No category is rated. -/
def NothingToCompare (toLowerCase : JString → JString) (word : JString)
    (staticTags : HashMap JString Tags) : Prop :=
  ∀ category, isGuessed category = true →
    candidates (isSameCase toLowerCase word) category (categories staticTags) = []

theorem countAfter_ne_zero_iff {staticTags : HashMap JString Tags} :
    (∀ category, countAfter toLowerCase word category staticTags ≠ some 0) ↔
      SharesAffixes toLowerCase word staticTags := by
  refine forall_congr' fun category => ?_
  by_cases hrated : isGuessed category = true ∧
      candidates (isSameCase toLowerCase word) category (categories staticTags) ≠ []
  · simp only [countAfter, hrated, ne_eq, not_false_eq_true, and_self, if_true, Option.some.injEq,
      ofNat_eq_zero_iff, forall_const]
  · rw [countAfter, if_neg hrated]
    exact iff_of_true nofun fun hguessed hne => absurd ⟨hguessed, hne⟩ hrated

theorem rate_nil_iff (ord : HashOrder) {staticTags : HashMap JString Tags} :
    ord.enum (rate toLowerCase word (ord.enum staticTags)) = [] ↔
      NothingToCompare toLowerCase word staticTags := by
  constructor
  · intro hnil category hguessed
    by_contra hne
    obtain ⟨r, hr, -⟩ := (mem_rate_iff ord staticTags _).mpr (if_pos ⟨hguessed, hne⟩)
    rw [hnil] at hr
    cases hr
  · intro hnothing
    refine List.eq_nil_iff_forall_not_mem.mpr fun e he => ?_
    have hcount := (mem_rate_iff ord staticTags e.2.count).mp ⟨e.2, he, rfl⟩
    rw [countAfter, if_neg fun hrated => hrated.2 (hnothing e.1 hrated.1)] at hcount
    cases hcount

theorem exists_category {staticTags : HashMap JString Tags} {count : Int64}
    (h : countAfter toLowerCase word category staticTags = some count) :
    ∃ e ∈ staticTags, e.2.category = some category := by
  unfold countAfter at h
  split at h
  · rename_i hrated
    obtain ⟨w, hw⟩ := List.exists_mem_of_ne_nil _ hrated.2
    obtain ⟨d, hd, -⟩ := List.mem_map.mp hw
    obtain ⟨hd, hcategory⟩ := List.mem_filter.mp hd
    obtain ⟨e, he, rfl⟩ := List.mem_map.mp hd
    exact ⟨e, he, by simpa using (Bool.and_eq_true_iff.mp hcategory).1⟩
  · cases h

theorem bestFrom_rate_isSome (ord : HashOrder) {staticTags : HashMap JString Tags} :
    (bestFrom scoreOf isBetter (ord.enum (rate toLowerCase word (ord.enum staticTags))) none
        0).isSome ↔ SharesAffixes toLowerCase word staticTags := by
  rw [bestFrom_isSome, ← countAfter_ne_zero_iff]
  constructor
  · intro hscores category hcount
    obtain ⟨r, hr, hzero⟩ := (mem_rate_iff ord staticTags 0).mpr hcount
    have hscore := hscores _ hr
    rw [scoreOf, if_pos hzero] at hscore
    cases hscore
  · intro hcounts e he
    have hcount := (mem_rate_iff ord staticTags e.2.count).mp ⟨e.2, he, rfl⟩
    have hne : e.2.count ≠ 0 := fun hzero => hcounts e.1 (hzero ▸ hcount)
    rw [scoreOf, if_neg hne, Option.isSome_some]

/-- The call returns what it should exactly when there is no division by zero and a word with tags is
a word. -/
theorem guess_iff (ord : HashOrder) (toLowerCase : JString → JString)
    (staticTags : HashMap JString Tags) (word : JString) :
    Guesses staticTags word (guess ord toLowerCase staticTags word) ↔
      SharesAffixes toLowerCase word staticTags ∧
        (newWord word ≠ none ∨ NothingToCompare toLowerCase word staticTags) := by
  rw [← bestFrom_rate_isSome ord, guess]
  cases hbest : bestFrom scoreOf isBetter
      (ord.enum (rate toLowerCase word (ord.enum staticTags))) none 0 with
  | none => simp [Guesses]
  | some found =>
      cases found with
      | none =>
          have hnil : ord.enum (rate toLowerCase word (ord.enum staticTags)) = [] := by
            by_contra hne
            exact bestFrom_ne_none hne (fun _ => by simp [isBetter]) hbest
          simp [Guesses, (rate_nil_iff ord).mp hnil]
      | some bestCategory =>
          obtain ⟨e, he, rfl⟩ : ∃ e ∈ ord.enum (rate toLowerCase word (ord.enum staticTags)),
              bestCategory = e.1 := by
            rcases bestFrom_mem hbest with hfound | ⟨e, he, hfound⟩
            · cases hfound
            · exact ⟨e, he, Option.some.inj hfound⟩
          have hsomething : ¬ NothingToCompare toLowerCase word staticTags :=
            mt (rate_nil_iff ord).mpr (List.ne_nil_of_mem he)
          have hcategory := exists_category
            ((mem_rate_iff ord staticTags e.2.count).mp ⟨e.2, he, rfl⟩)
          by_cases hword : newWord word = none
          · simp [Guesses, hword, hsomething]
          · simp [Guesses, hword, hcategory, HashMap.get_put]

/-- A word of one letter shares nothing that is counted. -/
theorem guess_oneLetter :
    guess .insertion id [(jtext "gehen", ⟨some "v".toList, none⟩)] (jtext "x") =
        .error .divisionByZero ∧
      ¬ Guesses [(jtext "gehen", ⟨some "v".toList, none⟩)] (jtext "x")
        (guess .insertion id [(jtext "gehen", ⟨some "v".toList, none⟩)] (jtext "x")) := by
  have hguess : guess .insertion id [(jtext "gehen", ⟨some "v".toList, none⟩)] (jtext "x") =
      .error .divisionByZero := rfl
  exact ⟨hguess, by rw [hguess]; exact id⟩

end Freehal.Pos
