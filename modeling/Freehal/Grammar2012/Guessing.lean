import Freehal.Grammar2012.FactIndex
import Freehal.Grammar2012.TagFiles
import Freehal.Lib.Best
import Freehal.Lib.Fold
import Freehal.Pos.Affixes
import Mathlib.Algebra.Group.Nat.Defs
import Mathlib.Data.Int.Order.Basic

/-!
# Guessing the part of speech of a word

`impl_guess` of `hal2012-tagger2012.cpp`. The result of an operation that overflows is undefined: it
is a parameter, and may be nothing.
-/

namespace Freehal.Grammar2012

open Lib (HashMap HashOrder bestFrom bestFrom_isSome bestFrom_max bestFrom_mono decimal
  foldlM_flatMap foldlM_mono)
open Pos (candidates candidates_singleton countedValues countedValues_append countedValues_perm
  isGuessed one_le_of_mem_sharedValues sharedValues)

/-! ## The ratings -/

/-- An `int`, or whatever an overflow results in. -/
def toInt (overflow : Int → Option Int) (i : Int) : Option Int :=
  if -2147483648 ≤ i ∧ i ≤ 2147483647 then some i else overflow i

/-- What `pos_to_rating` and `pos_to_count` hold. They have the same keys. -/
structure Rating where
  rating : Int
  count : Int
deriving DecidableEq

def isLower (data : Str) : Bool := lc data = data

def isSameCase (word valWord : Str) : Bool :=
  let wordIsLower := isLower word
  let valWordIsLower := isLower valWord
  !((wordIsLower && !valWordIsLower) || (!wordIsLower && valWordIsLower))

section

variable (overflow : Int → Option Int)

/-- An end or a beginning is counted for a part of speech. -/
def rateValue (posToRating : HashMap Str Rating) (value : Str × Nat) :
    Option (HashMap Str Rating) := do
  let r := (posToRating.get value.1).getD ⟨0, 0⟩
  let rating ← toInt overflow (r.rating + value.2)
  let count ← toInt overflow (r.count + 1)
  some (posToRating.put value.1 ⟨rating, count⟩)

def rateEntry (word : Str) (posToRating : HashMap Str Rating) (entry : Str × Str) :
    Option (HashMap Str Rating) :=
  if !isGuessed entry.2 || !isSameCase word entry.1 then some posToRating
  else ((sharedValues word entry.1).map fun value => (entry.2, value)).foldlM (rateValue overflow)
    posToRating

def rate (word : Str) (entries : List (Str × Str)) : Option (HashMap Str Rating) :=
  entries.foldlM (rateEntry overflow word) []

def scoreOf (r : Rating) : Option Int := do
  let score ← toInt overflow (r.rating * r.rating)
  let score ← toInt overflow (100 * score)
  if r.count = 0 then none else toInt overflow (score.tdiv r.count)

def isBetter (score bestScore : Int) : Bool := score > bestScore || bestScore = 0

/-- The part of speech and the map of types after the call. -/
def implGuess (ord : HashOrder) (type : HashMap Str Str) (word : Str) :
    Option (Str × HashMap Str Str) := do
  let posToRating ← rate overflow word (ord.enum type)
  let bestPosType ← bestFrom (scoreOf overflow) isBetter (ord.enum posToRating) none 0
  some (bestPosType.getD [], insert type word (bestPosType.getD []))

end

/-! ## Sums per part of speech -/

def total : List Nat → Nat
  | [] => 0
  | v :: values => v + total values

/-- What is counted in the entries, in its order. -/
def countedIn (word : Str) (entries : List (Str × Str)) : List (Str × Nat) :=
  entries.flatMap fun entry =>
    if !isGuessed entry.2 || !isSameCase word entry.1 then []
    else (sharedValues word entry.1).map fun value => (entry.2, value)

def valuesOf (category : Str) (counted : List (Str × Nat)) : List Nat :=
  (counted.filter fun value => value.1 = category).map (·.2)

/-- The ratings are the sums, and the counters the numbers, of the values. -/
def Rates (counted : List (Str × Nat)) (posToRating : HashMap Str Rating) : Prop :=
  posToRating.Unique ∧ ∀ category, posToRating.get category =
    if valuesOf category counted = [] then none
    else some ⟨total (valuesOf category counted), (valuesOf category counted).length⟩

variable {counted : List (Str × Nat)} {posToRating : HashMap Str Rating} {category : Str}

theorem valuesOf_append (value : Str × Nat) :
    valuesOf category (counted ++ [value]) =
      if value.1 = category then valuesOf category counted ++ [value.2]
      else valuesOf category counted := by
  rw [valuesOf, List.filter_append, List.map_append]
  by_cases h : value.1 = category <;> simp [valuesOf, h]

theorem total_append (values values' : List Nat) :
    total (values ++ values') = total values + total values' := by
  induction values with
  | nil => exact (Nat.zero_add _).symm
  | cons v values ih => rw [List.cons_append, total, ih, total, Nat.add_assoc]

theorem total_perm {values values' : List Nat} (h : values.Perm values') :
    total values = total values' := by
  induction h with
  | nil => rfl
  | cons v _ ih => rw [total, ih, total]
  | swap v w values =>
      simp only [total]
      omega
  | trans _ _ ih ih' => rw [ih, ih']

theorem length_le_total {values : List Nat} (h : ∀ v ∈ values, 1 ≤ v) :
    values.length ≤ total values := by
  induction values with
  | nil => exact Nat.le_refl 0
  | cons v values ih =>
      obtain ⟨hv, hvalues⟩ := List.forall_mem_cons.mp h
      have hlength := ih hvalues
      rw [List.length_cons, total]
      omega

theorem Rates.getD (h : Rates counted posToRating) (category : Str) :
    (posToRating.get category).getD ⟨0, 0⟩ =
      ⟨total (valuesOf category counted), (valuesOf category counted).length⟩ := by
  rw [h.2]
  split
  · rename_i hnil
    rw [hnil]
    rfl
  · rfl

/-! ## Operations that do not overflow -/

/-- An overflow ends the program. -/
def trap : Int → Option Int := fun _ => none

variable {overflow : Int → Option Int}

theorem toInt_trap {i j : Int} :
    toInt trap i = some j ↔ i = j ∧ -2147483648 ≤ i ∧ i ≤ 2147483647 := by
  unfold toInt
  split
  · rename_i hrange
    simp [hrange]
  · rename_i hrange
    exact iff_of_false nofun fun h => hrange h.2

theorem toInt_of_trap {i j : Int} (h : toInt trap i = some j) : toInt overflow i = some j := by
  obtain ⟨rfl, hrange⟩ := toInt_trap.mp h
  exact if_pos hrange

theorem Rates.step (h : Rates counted posToRating) {value : Str × Nat}
    {next : HashMap Str Rating} (hnext : rateValue trap posToRating value = some next) :
    Rates (counted ++ [value]) next := by
  rw [rateValue, h.getD] at hnext
  obtain ⟨rating, hrating, hnext⟩ := Option.bind_eq_some_iff.mp hnext
  obtain ⟨count, hcount, hnext⟩ := Option.bind_eq_some_iff.mp hnext
  obtain ⟨rfl, -⟩ := toInt_trap.mp hrating
  obtain ⟨rfl, -⟩ := toInt_trap.mp hcount
  cases hnext
  refine ⟨h.1.put _ _, fun category => ?_⟩
  rw [HashMap.get_put, valuesOf_append]
  by_cases hcategory : category = value.1
  · simp [hcategory, total_append, total]
  · rw [if_neg hcategory, if_neg (Ne.symm hcategory), h.2]

theorem exists_rateValue (h : Rates counted posToRating) {value : Str × Nat}
    (hpos : ∀ v ∈ counted ++ [value], 1 ≤ v.2)
    (htotal : total (valuesOf value.1 (counted ++ [value])) ≤ 2147483647) :
    ∃ next, rateValue trap posToRating value = some next := by
  have hlength : (valuesOf value.1 (counted ++ [value])).length ≤ 2147483647 := by
    refine (length_le_total fun v hv => ?_).trans htotal
    obtain ⟨w, hw, rfl⟩ := List.mem_map.mp hv
    exact hpos w (List.mem_of_mem_filter hw)
  rw [valuesOf_append, if_pos rfl] at htotal hlength
  rw [total_append, total, total] at htotal
  rw [List.length_append, List.length_singleton] at hlength
  have hrating : toInt trap ((total (valuesOf value.1 counted) : Int) + value.2) =
      some ((total (valuesOf value.1 counted) : Int) + value.2) :=
    toInt_trap.mpr ⟨rfl, by omega, by omega⟩
  have hcount : toInt trap (((valuesOf value.1 counted).length : Int) + 1) =
      some (((valuesOf value.1 counted).length : Int) + 1) :=
    toInt_trap.mpr ⟨rfl, by omega, by omega⟩
  rw [rateValue, h.getD]
  simp only [hrating, hcount]
  exact ⟨_, rfl⟩

theorem rates_of_fold (h : counted.foldlM (rateValue trap) [] = some posToRating) :
    Rates counted posToRating := by
  induction counted using List.reverseRecOn generalizing posToRating with
  | nil =>
      cases h
      exact ⟨.nil, fun _ => rfl⟩
  | append_singleton counted value ih =>
      rw [List.foldlM_append] at h
      obtain ⟨before, hbefore, hstep⟩ := Option.bind_eq_some_iff.mp h
      rw [List.foldlM_cons] at hstep
      obtain ⟨next, hnext, hrest⟩ := Option.bind_eq_some_iff.mp hstep
      cases hrest
      exact (ih hbefore).step hnext

theorem exists_fold (hpos : ∀ v ∈ counted, 1 ≤ v.2)
    (htotal : ∀ category, total (valuesOf category counted) ≤ 2147483647) :
    ∃ posToRating, counted.foldlM (rateValue trap) [] = some posToRating := by
  induction counted using List.reverseRecOn with
  | nil => exact ⟨[], rfl⟩
  | append_singleton counted value ih =>
      have hbefore : ∀ category, total (valuesOf category counted) ≤ 2147483647 := by
        intro category
        have hall := htotal category
        rw [valuesOf_append] at hall
        split at hall
        · rw [total_append] at hall
          omega
        · exact hall
      obtain ⟨before, hfold⟩ := ih (fun v hv => hpos v (List.mem_append_left _ hv)) hbefore
      obtain ⟨next, hnext⟩ := exists_rateValue (rates_of_fold hfold) hpos (htotal value.1)
      refine ⟨next, ?_⟩
      simp [List.foldlM_append, hfold, hnext]

/-! ## The dictionary -/

/-- The words of the dictionary with their types. -/
def types (type : List (Str × Str)) : List (Str × Option Str) := type.map fun e => (e.1, some e.2)

theorem rate_eq (word : Str) (entries : List (Str × Str)) :
    rate overflow word entries = (countedIn word entries).foldlM (rateValue overflow) [] := by
  rw [rate, countedIn, foldlM_flatMap]
  congr 1
  funext m e
  unfold rateEntry
  split <;> rfl

theorem valuesOf_entry (word : Str) (e : Str × Str) :
    valuesOf category (countedIn word [e]) =
      if isGuessed category = true then
        countedValues word (isSameCase word) category (types [e])
      else [] := by
  have htypes : types [e] = [(e.1, some e.2)] := rfl
  rw [htypes, countedIn, List.flatMap_singleton, countedValues, candidates_singleton]
  by_cases hsame : e.2 = category
  · subst hsame
    cases isGuessed e.2 <;> cases isSameCase word e.1 <;>
      simp [valuesOf, List.filter_map, Function.comp_def]
  · split <;> simp [hsame, valuesOf]

theorem valuesOf_countedIn (word : Str) (entries : List (Str × Str)) :
    valuesOf category (countedIn word entries) =
      if isGuessed category = true then
        countedValues word (isSameCase word) category (types entries)
      else [] := by
  induction entries with
  | nil => simp [countedIn, valuesOf, countedValues, candidates, types]
  | cons e entries ih =>
      have hcounted : countedIn word (e :: entries) = countedIn word [e] ++ countedIn word entries := by
        simp [countedIn]
      have htypes : types (e :: entries) = types [e] ++ types entries := rfl
      rw [hcounted, htypes, countedValues_append, valuesOf, List.filter_append, List.map_append]
      change valuesOf category _ ++ valuesOf category _ = _
      rw [ih, valuesOf_entry]
      split <;> rfl

/-- What is counted for a part of speech. -/
def valuesFor (word category : Str) (type : List (Str × Str)) : List Nat :=
  countedValues word (isSameCase word) category (types type)

theorem valuesFor_perm {word : Str} {entries entries' : List (Str × Str)}
    (h : entries.Perm entries') :
    (valuesFor word category entries).Perm (valuesFor word category entries') :=
  countedValues_perm (h.map _)

/-! ## The scores -/

/-- The score in unbounded arithmetic. -/
def exactScore (values : List Nat) : Nat := 100 * (total values * total values) / values.length

theorem scoreOf_trap {values : List Nat} (hvalues : values ≠ []) {s : Int} :
    scoreOf trap ⟨total values, values.length⟩ = some s ↔
      s = exactScore values ∧ 100 * (total values * total values) < 2 ^ 31 := by
  have hcount : ¬ (values.length : Int) = 0 := by
    simpa using hvalues
  have hsquare : (total values : Int) * total values = (total values * total values : Nat) :=
    (Int.natCast_mul _ _).symm
  rw [scoreOf, exactScore]
  simp only [hsquare, if_neg hcount]
  generalize total values * total values = square
  have hdiv : (100 * (square : Int)).tdiv values.length = (100 * square / values.length : Nat) := by
    rw [Int.ofNat_tdiv, Int.natCast_mul]
    rfl
  have hle : 100 * square / values.length ≤ 100 * square := Nat.div_le_self _ _
  generalize 100 * square / values.length = quotient at hdiv hle ⊢
  constructor
  · intro h
    obtain ⟨q, hq, h⟩ := Option.bind_eq_some_iff.mp h
    obtain ⟨rfl, -⟩ := toInt_trap.mp hq
    obtain ⟨p, hp, h⟩ := Option.bind_eq_some_iff.mp h
    obtain ⟨rfl, -, hlt⟩ := toInt_trap.mp hp
    rw [hdiv] at h
    exact ⟨(toInt_trap.mp h).1.symm, by omega⟩
  · rintro ⟨rfl, hlt⟩
    have hq : toInt trap (square : Int) = some (square : Int) :=
      toInt_trap.mpr ⟨rfl, by omega, by omega⟩
    have hp : toInt trap (100 * (square : Int)) = some (100 * (square : Int)) :=
      toInt_trap.mpr ⟨rfl, by omega, by omega⟩
    rw [hq]
    refine Option.bind_eq_some_iff.mpr ⟨_, rfl, ?_⟩
    rw [hp]
    refine Option.bind_eq_some_iff.mpr ⟨_, rfl, ?_⟩
    rw [hdiv]
    exact toInt_trap.mpr ⟨rfl, by omega, by omega⟩

theorem exactScore_pos {values : List Nat} (hvalues : values ≠ []) (hpos : ∀ v ∈ values, 1 ≤ v) :
    0 < exactScore values := by
  have hlength := length_le_total hpos
  have hne := List.length_pos_iff.mpr hvalues
  refine Nat.div_pos ?_ hne
  calc values.length ≤ total values := hlength
    _ ≤ total values * total values := Nat.le_mul_self _
    _ ≤ 100 * (total values * total values) := Nat.le_mul_of_pos_left _ (by omega)

/-- No part of speech is counted, or the one with the highest score is meant. -/
def IsBest (type : List (Str × Str)) (word best : Str) : Prop :=
  (best = [] ∧ ∀ category, isGuessed category = true → valuesFor word category type = []) ∨
    (isGuessed best = true ∧ valuesFor word best type ≠ [] ∧
      ∀ category, isGuessed category = true → valuesFor word category type ≠ [] →
        exactScore (valuesFor word category type) ≤ exactScore (valuesFor word best type))

theorem mem_ratings {ord : HashOrder} {type : HashMap Str Str} {word : Str}
    (h : Rates (countedIn word (ord.enum type)) posToRating) {e : Str × Rating} :
    e ∈ ord.enum posToRating ↔
      isGuessed e.1 = true ∧ valuesFor word e.1 type ≠ [] ∧
        e.2 = ⟨total (valuesFor word e.1 type), (valuesFor word e.1 type).length⟩ := by
  have hperm : (valuesFor word e.1 (ord.enum type)).Perm (valuesFor word e.1 type) :=
    valuesFor_perm (ord.perm type)
  have hnil : valuesFor word e.1 (ord.enum type) = [] ↔ valuesFor word e.1 type = [] := by
    rw [← List.length_eq_zero_iff, hperm.length_eq, List.length_eq_zero_iff]
  have hget : e ∈ ord.enum posToRating ↔ posToRating.get e.1 = some e.2 :=
    ord.mem_enum.trans ⟨h.1.get, HashMap.mem_of_get⟩
  rw [hget, h.2, valuesOf_countedIn]
  by_cases hguessed : isGuessed e.1 = true
  · rw [if_pos hguessed]
    change (if valuesFor word e.1 (ord.enum type) = [] then none else
      some (Rating.mk (total (valuesFor word e.1 (ord.enum type)))
        (valuesFor word e.1 (ord.enum type)).length)) = some e.2 ↔ _
    rw [total_perm hperm, hperm.length_eq]
    by_cases hne : valuesFor word e.1 type = []
    · simp [hnil.mpr hne, hne]
    · simp [mt hnil.mp hne, hne, hguessed, eq_comm]
  · simp [hguessed]

theorem mem_of_values {ord : HashOrder} {type : HashMap Str Str} {word : Str}
    (h : Rates (countedIn word (ord.enum type)) posToRating) (hguessed : isGuessed category = true)
    (hvalues : valuesFor word category type ≠ []) :
    (category, Rating.mk (total (valuesFor word category type))
      (valuesFor word category type).length) ∈ ord.enum posToRating :=
  (mem_ratings h).mpr ⟨hguessed, hvalues, rfl⟩

theorem pos_of_mem_countedIn {word : Str} {entries : List (Str × Str)} {value : Str × Nat}
    (h : value ∈ countedIn word entries) : 1 ≤ value.2 := by
  obtain ⟨e, -, hvalue⟩ := List.mem_flatMap.mp h
  split at hvalue
  · cases hvalue
  · obtain ⟨v, hv, rfl⟩ := List.mem_map.mp hvalue
    exact one_le_of_mem_sharedValues hv

theorem pos_of_mem_valuesFor {word : Str} {type : List (Str × Str)} {v : Nat}
    (h : v ∈ valuesFor word category type) : 1 ≤ v := by
  obtain ⟨valWord, -, hv⟩ := List.mem_flatMap.mp h
  exact one_le_of_mem_sharedValues hv

/-! ## The best part of speech -/

/-- The products of all parts of speech fit into an `int`. -/
def Fits (type : List (Str × Str)) (word : Str) : Prop :=
  ∀ category, isGuessed category = true →
    100 * (total (valuesFor word category type) * total (valuesFor word category type)) < 2 ^ 31

/-- An overflow is met, or the call returns. -/
theorem fits_of_trap {ord : HashOrder} {type : HashMap Str Str} {word : Str}
    (h : (implGuess trap ord type word).isSome) : Fits type word := by
  obtain ⟨result, hresult⟩ := Option.isSome_iff_exists.mp h
  obtain ⟨posToRating, hrate, hresult⟩ := Option.bind_eq_some_iff.mp hresult
  obtain ⟨best, hbest, -⟩ := Option.bind_eq_some_iff.mp hresult
  rw [rate_eq] at hrate
  have hscores := (bestFrom_isSome _ _ _).mp (Option.isSome_of_eq_some hbest)
  intro category hguessed
  by_cases hvalues : valuesFor word category type = []
  · rw [hvalues]
    decide
  · have hmem := mem_of_values (rates_of_fold hrate) hguessed hvalues
    obtain ⟨s, hs⟩ := Option.isSome_iff_exists.mp (hscores _ hmem)
    exact ((scoreOf_trap hvalues).mp hs).2

theorem exists_of_fits {ord : HashOrder} {type : HashMap Str Str} {word : Str}
    (h : Fits type word) : ∃ posToRating best,
      rate trap word (ord.enum type) = some posToRating ∧
        bestFrom (scoreOf trap) isBetter (ord.enum posToRating) none 0 = some best := by
  have htotal : ∀ category, total (valuesOf category (countedIn word (ord.enum type))) ≤
      2147483647 := by
    intro category
    rw [valuesOf_countedIn]
    split
    · rename_i hguessed
      have hfits := h category hguessed
      have hle := Nat.le_mul_self (total (valuesFor word category type))
      have hperm : total (countedValues word (isSameCase word) category (types (ord.enum type))) =
          total (valuesFor word category type) := total_perm (valuesFor_perm (ord.perm type))
      rw [hperm]
      omega
    · exact Nat.zero_le _
  obtain ⟨posToRating, hfold⟩ := exists_fold (fun _ => pos_of_mem_countedIn) htotal
  have hscores : ∀ e ∈ ord.enum posToRating, (scoreOf trap e.2).isSome := by
    intro e he
    obtain ⟨hguessed, hvalues, hrating⟩ := (mem_ratings (rates_of_fold hfold)).mp he
    rw [hrating, Option.isSome_iff_exists]
    exact ⟨_, (scoreOf_trap hvalues).mpr ⟨rfl, h _ hguessed⟩⟩
  obtain ⟨best, hbest⟩ := Option.isSome_iff_exists.mp
    ((@bestFrom_isSome _ _ _ (scoreOf trap) isBetter _ none 0).mpr hscores)
  exact ⟨posToRating, best, (rate_eq word _).trans hfold, hbest⟩

theorem isBest_of_trap {ord : HashOrder} {type : HashMap Str Str} {word : Str}
    {best : Option Str} (hrate : rate trap word (ord.enum type) = some posToRating)
    (hbest : bestFrom (scoreOf trap) isBetter (ord.enum posToRating) none 0 = some best) :
    IsBest type word (best.getD []) := by
  rw [rate_eq] at hrate
  have hrates := rates_of_fold hrate
  have hscore : ∀ e ∈ ord.enum posToRating, ∀ s, scoreOf trap e.2 = some s →
      s = exactScore (valuesFor word e.1 type) ∧ 0 < s := by
    intro e he s hs
    obtain ⟨-, hvalues, hrating⟩ := (mem_ratings hrates).mp he
    rw [hrating] at hs
    have hexact := ((scoreOf_trap hvalues).mp hs).1
    have hpos := exactScore_pos hvalues fun _ => pos_of_mem_valuesFor
    exact ⟨hexact, by omega⟩
  obtain ⟨s, hzero, hmax, hfound⟩ := bestFrom_max (fun e he s hs t => by
    have hpos := (hscore e he s hs).2
    simp only [isBetter, Bool.or_eq_true, decide_eq_true_eq]
    omega) hbest
  have hall : ∀ category, isGuessed category = true → valuesFor word category type ≠ [] →
      0 < (exactScore (valuesFor word category type) : Int) ∧
        (exactScore (valuesFor word category type) : Int) ≤ s := by
    intro category hguessed hvalues
    have hmem := mem_of_values hrates hguessed hvalues
    obtain ⟨t, ht⟩ := Option.isSome_iff_exists.mp
      ((bestFrom_isSome _ _ _).mp (Option.isSome_of_eq_some hbest) _ hmem)
    obtain ⟨hexact, hpos⟩ := hscore _ hmem t ht
    exact ⟨hexact ▸ hpos, hexact ▸ hmax _ hmem t ht⟩
  rcases hfound with ⟨rfl, rfl⟩ | ⟨e, he, rfl, hs⟩
  · refine Or.inl ⟨rfl, fun category hguessed => ?_⟩
    by_contra hvalues
    obtain ⟨hpos, hle⟩ := hall category hguessed hvalues
    omega
  · obtain ⟨hguessed, hvalues, -⟩ := (mem_ratings hrates).mp he
    refine Or.inr ⟨hguessed, hvalues, fun category hguessed' hvalues' => ?_⟩
    have hle := (hall category hguessed' hvalues').2
    rw [(hscore e he s hs).1] at hle
    exact Int.ofNat_le.mp hle

theorem rate_of_trap {word : Str} {entries : List (Str × Str)}
    (h : rate trap word entries = some posToRating) :
    rate overflow word entries = some posToRating := by
  rw [rate_eq] at h ⊢
  refine foldlM_mono (fun m value next hnext => ?_) h
  obtain ⟨rating, hrating, hnext⟩ := Option.bind_eq_some_iff.mp hnext
  obtain ⟨count, hcount, hnext⟩ := Option.bind_eq_some_iff.mp hnext
  rw [rateValue]
  simp only [toInt_of_trap hrating, toInt_of_trap hcount]
  exact hnext

theorem scoreOf_of_trap {r : Rating} {s : Int} (h : scoreOf trap r = some s) :
    scoreOf overflow r = some s := by
  obtain ⟨q, hq, h⟩ := Option.bind_eq_some_iff.mp h
  obtain ⟨p, hp, h⟩ := Option.bind_eq_some_iff.mp h
  rw [scoreOf, toInt_of_trap hq]
  refine Option.bind_eq_some_iff.mpr ⟨q, rfl, ?_⟩
  rw [toInt_of_trap hp]
  refine Option.bind_eq_some_iff.mpr ⟨p, rfl, ?_⟩
  split at h
  · cases h
  · rw [if_neg ‹_›]
    exact toInt_of_trap h

/-- Whatever an overflow results in, the part of speech with the highest score is returned, exactly
when there is no overflow. -/
theorem implGuess_best_iff (ord : HashOrder) (type : HashMap Str Str) (word : Str) :
    (∀ overflow, ∃ best type', implGuess overflow ord type word = some (best, type') ∧
        IsBest type word best) ↔ Fits type word := by
  constructor
  · intro h
    obtain ⟨best, type', hguess, -⟩ := h trap
    exact fits_of_trap (Option.isSome_of_eq_some hguess)
  · intro h overflow
    obtain ⟨posToRating, best, hrate, hbest⟩ := @exists_of_fits ord type word h
    refine ⟨best.getD [], insert type word (best.getD []), ?_, isBest_of_trap hrate hbest⟩
    have hfound := bestFrom_mono (fun _ _ => @scoreOf_of_trap overflow _ _) hbest
    rw [implGuess, rate_of_trap hrate]
    refine Option.bind_eq_some_iff.mpr ⟨_, rfl, ?_⟩
    rw [hfound]
    rfl

/-- Many nouns and a verb with all ends and beginnings that are counted. -/
def manyNouns : HashMap Str Str :=
  ("conflagration".toList, "v".toList) ::
    (List.range 83).map fun i => ("con".toList ++ decimal i ++ "ration".toList, "n".toList)

/-- In two's complement the score of the nouns is negative. -/
theorem implGuess_manyNouns :
    (implGuess (fun i => some (i.bmod (2 ^ 32))) .insertion manyNouns "consideration".toList).map
        (·.1) = some "v".toList ∧ ¬ IsBest manyNouns "consideration".toList "v".toList := by
  refine ⟨by decide +kernel, ?_⟩
  rintro (⟨hnil, -⟩ | ⟨-, -, hmax⟩)
  · cases hnil
  · have hle := hmax "n".toList rfl (by decide +kernel)
    have hlt : exactScore (valuesFor "consideration".toList "v".toList manyNouns) <
        exactScore (valuesFor "consideration".toList "n".toList manyNouns) := by decide +kernel
    omega

end Freehal.Grammar2012
