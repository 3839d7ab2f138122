import Freehal.Disk.QueryCache
import Freehal.Lib.Buffer

/-!
# Negotiating a request

`negotiate_deep_search` of `hal2012-universal.c`: the request for the if-clause of a rule whose
then-clause answers a question. It fails where a null string is compared, and where the text of the
objects leaves its buffer.
-/

namespace Freehal.Universal.Negotiating

open Disk (divideWords)

/-! ## Synonyms and requests -/

structure Synonym where
  words : List Word
  level : Int
  direction : Int

/-- The lists of synonyms, with the entries that are no valid pointers. -/
structure SynonymSet where
  subjects : List (Option Synonym)
  objects : List (Option Synonym)
  adverbs : List (Option Synonym)
  extra : List (Option Synonym)

abbrev WordGroups := List (List Word)

/-- The members of `request` that are set. -/
structure Request where
  subjects : WordGroups
  objects : WordGroups
  verbs : List Word
  adverbs : WordGroups
  extra : WordGroups
  questionword : Str
  context : Str
  truth : Rat
  hasConditionalQuestionword : Bool

def reverse : Int := 1

def forward : Int := 0

def maxSynonymCount : Nat := 99

def filterSynonyms (synonyms : List (Option Synonym)) (level direction : Int) : WordGroups :=
  ((synonyms.take maxSynonymCount).reduceOption.filter fun syn =>
    level ≥ syn.level && (direction = syn.direction || direction = reverse)).map (·.words)

/-- `fake_synonyms` of a text. -/
def fakeSynonyms (exp : Str) : WordGroups :=
  let exp := if exp.head? = some '0' ∨ exp.head? = some ' ' then [] else exp
  if exp.length > 0 then [divideWords exp] else []

def generalVerbs : Str :=
  ("=|bi|is|bin|bist|ist|sind|seid|heisst|heisse|heissen|sei|war|wurde|wurden|werden|werde|wirst|" ++
    "wurdest|wurde|wuerdet|werdet|is|am|are").toList

/-- `generalize_verb`, with the trimmed lines of `verbs.csv`. -/
def generalizeVerb (verbsCsv : List Str) (verb : Str) : Str :=
  if strstr ('|' :: generalVerbs ++ ['|']) ('|' :: verb) then generalVerbs
  else
    match verbsCsv.find? fun buffer => strstr (',' :: buffer ++ [',']) (',' :: verb ++ [',']) with
    | some buffer => buffer.map fun c => if c = ',' then '|' else c
    | none => verb

/-! ## Comparing the clauses -/

inductive Failure where
  | nullString
  | overflow
deriving DecidableEq

/-- The last variable among the words. -/
def variableIn (words : List Word) : Option Str :=
  words.foldl (fun v word => if isAVariable word.name then some word.name else v) none

/-- The last words match. -/
def lastMatch (thenWords ifWords : List Word) : Bool :=
  match thenWords.getLast?, ifWords.getLast? with
  | some a, some b =>
      decide (a.name.length > 1) && decide (b.name.length > 1) && matchesWithPipe a.name b.name
  | _, _ => false

/-- Whether `strcmp` is not zero. -/
def strcmp : Option Str → Option Str → Except Failure Bool
  | some a, some b => .ok (a ≠ b)
  | _, _ => .error .nullString

/-- The first name differs from the second, and then from the third. -/
def namesDiffer (a b c : Option Str) : Except Failure Bool := do
  if ← strcmp a b then strcmp a c else .ok false

def strcatTemp (temp text : Str) : Except Failure Str :=
  match Lib.strcat 512 temp text with
  | some temp => .ok temp
  | none => .error .overflow

/-- The loop that writes the words with the index `i` and those behind it. -/
def fillTemp : Nat → Nat → Str → List Word → Except Failure Str
  | _, _, temp, [] => .ok temp
  | i, size, temp, word :: words =>
      if size + word.name.length < 512 then do
        let temp ← if i ≠ 0 then strcatTemp temp [' '] else .ok temp
        let temp ← strcatTemp temp word.name
        fillTemp (i + 1) (size + (word.name.length + 1)) temp words
      else fillTemp (i + 1) size temp words

/-! ## The request -/

/-- What is asked for, and what may be inserted. -/
structure Question where
  synonymSet : SynonymSet
  subjects : Str
  objects : Str
  verbs : Str
  adverbs : Str
  extra : Str
  questionword : Str
  context : Str
  level : Int
  direction : Int

/-- The synonyms of the objects, or of the extra words if there are no objects. -/
def Question.objectSynonyms (q : Question) : WordGroups :=
  if q.objects.length > 0 then filterSynonyms q.synonymSet.objects q.level q.direction
  else filterSynonyms q.synonymSet.extra q.level q.direction

/-- `req->subjects` and `req->objects`, which may be null pointers. -/
structure Places where
  subjects : Option WordGroups
  objects : Option WordGroups

section

variable (q : Question) (ifClause thenClause : Fact)

/-- The then-clause has a variable in the subjects. -/
def insertSubjects (p : Places) : Places :=
  if (variableIn thenClause.subjects).isSome then
    let thing := filterSynonyms q.synonymSet.subjects q.level forward
    let p :=
      if (variableIn ifClause.subjects).isSome && p.subjects.isNone then
        { subjects := some thing
          objects := if lastMatch thenClause.objects ifClause.objects then some q.objectSynonyms
            else p.objects }
      else p
    if (variableIn ifClause.objects).isSome && p.objects.isNone then
      { objects := some thing
        subjects := if lastMatch thenClause.objects ifClause.subjects then some q.objectSynonyms
          else p.subjects }
    else p
  else p

/-- The then-clause has a variable in the objects. -/
def insertObjects (p : Places) : Places :=
  if (variableIn thenClause.objects).isSome then
    let thing := filterSynonyms q.synonymSet.subjects q.level q.direction
    let p :=
      if (variableIn ifClause.subjects).isSome && p.subjects.isNone then
        { subjects := some q.objectSynonyms
          objects := if lastMatch thenClause.objects ifClause.subjects then some thing
            else p.objects }
      else p
    if (variableIn ifClause.objects).isSome && p.objects.isNone then
      { objects := some q.objectSynonyms
        subjects := if lastMatch thenClause.subjects ifClause.subjects then some thing
          else p.subjects }
    else p
  else p

/-- The objects of the if-clause are inserted. -/
def insertTemp (p : Places) : Except Failure Places :=
  if (variableIn thenClause.objects).isSome && (variableIn ifClause.objects).isNone then
    if p.objects.isNone then do
      if ← namesDiffer (variableIn thenClause.objects) (variableIn thenClause.subjects)
          (variableIn ifClause.subjects) then
        let temp ← fillTemp 0 0 [] ifClause.objects
        return { p with objects := some (fakeSynonyms temp) }
      else return p
    else .ok p
  else .ok p

/-- The verbs of the if-clause, or those of the question. -/
def requestVerbs : Str :=
  let verbs := joinWords ifClause.verbs
  if verbs.length > 5 && (strstr verbs ['0'] || strstr verbs ['1']) then
    let verbs := verbs.take (verbs.length - 5)
    if strstr q.verbs verbs then q.verbs else verbs
  else verbs

def negotiateDeepSearch (verbsCsv : List Str) : Except Failure Request := do
  let p ← insertTemp ifClause thenClause
    (insertObjects q ifClause thenClause (insertSubjects q ifClause thenClause ⟨none, none⟩))
  return {
    subjects := p.subjects.getD (fakeSynonyms [])
    objects := p.objects.getD (fakeSynonyms [])
    verbs := (divideWords (requestVerbs q ifClause)).map fun word =>
      if word.name.length ≥ 1 then ⟨generalizeVerb verbsCsv word.name⟩ else word
    adverbs := fakeSynonyms (joinWords ifClause.adverbs)
    extra := fakeSynonyms (joinWords ifClause.extra)
    questionword := ifClause.questionword
    context := q.context
    truth := 1
    hasConditionalQuestionword := false }

end

/-! ## The buffer -/

/-- The characters of the words that are written, each with one more, from `size` on. -/
def counted : Nat → List Word → Nat
  | size, [] => size
  | size, word :: words =>
      if size + word.name.length < 512 then counted (size + (word.name.length + 1)) words
      else counted size words

theorem strcatTemp_of_le {temp text : Str} (h : temp.length + text.length ≤ 511) :
    strcatTemp temp text = .ok (temp ++ text) := by
  rw [strcatTemp, Lib.strcat, if_pos (by omega)]

theorem strcatTemp_of_lt {temp text : Str} (h : 511 < temp.length + text.length) :
    strcatTemp temp text = .error .overflow := by
  rw [strcatTemp, Lib.strcat, if_neg (by omega)]

/-- When the first word was written, the text is shorter than what is counted. -/
theorem fillTemp_of_lt {words : List Word} {i size : Nat} {temp : Str} (hi : i ≠ 0)
    (h : temp.length < size) (hsize : size ≤ 512) :
    ∃ text, fillTemp i size temp words = .ok text := by
  induction words generalizing i size temp with
  | nil => exact ⟨temp, rfl⟩
  | cons word words ih =>
      rw [fillTemp]
      by_cases hroom : size + word.name.length < 512
      · have hblank := @strcatTemp_of_le temp [' '] (by rw [List.length_singleton]; omega)
        have hword := @strcatTemp_of_le (temp ++ [' ']) word.name
          (by rw [List.length_append, List.length_singleton]; omega)
        obtain ⟨text, htext⟩ := @ih (i + 1) (size + (word.name.length + 1))
          (temp ++ [' '] ++ word.name) (by omega)
          (by rw [List.length_append, List.length_append, List.length_singleton]; omega) (by omega)
        refine ⟨text, ?_⟩
        rw [if_pos hroom, if_pos hi, hblank]
        show (strcatTemp (temp ++ [' ']) word.name).bind _ = _
        rw [hword]
        exact htext
      · rw [if_neg hroom]
        exact ih (by omega) h hsize

theorem counted_full (words : List Word) : counted 512 words = 512 := by
  induction words with
  | nil => rfl
  | cons word words ih => rw [counted, if_neg (by omega), ih]

/-- Otherwise the text is as long as what is counted. -/
theorem fillTemp_iff {words : List Word} {i size : Nat} {temp : Str} (hi : i ≠ 0)
    (h : temp.length = size) (hsize : size ≤ 511) :
    (∃ text, fillTemp i size temp words = .ok text) ↔ counted size words ≠ 512 := by
  induction words generalizing i size temp with
  | nil => exact iff_of_true ⟨temp, rfl⟩ (show size ≠ 512 by omega)
  | cons word words ih =>
      rw [fillTemp, counted]
      by_cases hroom : size + word.name.length < 512
      · rw [if_pos hroom, if_pos hroom, if_pos hi]
        by_cases hfull : size + (word.name.length + 1) = 512
        · -- the null character is written behind the buffer
          rw [hfull, counted_full]
          refine iff_of_false ?_ (by simp)
          rintro ⟨text, htext⟩
          by_cases hblank : temp.length + 1 ≤ 511
          · rw [@strcatTemp_of_le temp [' '] hblank] at htext
            change (strcatTemp (temp ++ [' ']) word.name).bind _ = _ at htext
            rw [strcatTemp_of_lt (by rw [List.length_append, List.length_singleton]; omega)] at htext
            cases htext
          · rw [strcatTemp_of_lt (by rw [List.length_singleton]; omega)] at htext
            cases htext
        · have hblank := @strcatTemp_of_le temp [' '] (by rw [List.length_singleton]; omega)
          have hword := @strcatTemp_of_le (temp ++ [' ']) word.name
            (by rw [List.length_append, List.length_singleton]; omega)
          rw [hblank]
          change (∃ text, (strcatTemp (temp ++ [' ']) word.name).bind _ = .ok text) ↔ _
          rw [hword]
          exact ih (by omega)
            (by rw [List.length_append, List.length_append, List.length_singleton]; omega) (by omega)
      · rw [if_neg hroom, if_neg hroom]
        exact ih (by omega) h hsize

/-- The first word is shorter than the buffer, or those behind it do not fill it to the last byte. -/
def TempFits : List Word → Prop
  | [] => True
  | word :: words => word.name.length < 512 ∨ counted 0 words ≠ 512

theorem fillTemp_zero_iff (words : List Word) :
    (∃ text, fillTemp 0 0 [] words = .ok text) ↔ TempFits words := by
  cases words with
  | nil => exact iff_of_true ⟨[], rfl⟩ trivial
  | cons word words =>
      rw [fillTemp, TempFits]
      by_cases hroom : word.name.length < 512
      · have hword := @strcatTemp_of_le [] word.name (by rw [List.length_nil]; omega)
        rw [if_pos (by omega)]
        refine iff_of_true ?_ (Or.inl hroom)
        change ∃ text, (strcatTemp [] word.name).bind _ = .ok text
        rw [hword]
        exact fillTemp_of_lt (by omega) (by rw [List.nil_append]; omega) (by omega)
      · rw [if_neg (by omega), @fillTemp_iff words 1 0 [] (by omega) rfl (by omega)]
        simp [hroom]

/-! ## The comparisons -/

variable (q : Question) (ifClause thenClause : Fact)

/-- The places before the objects of the if-clause are inserted. -/
def places : Places :=
  insertObjects q ifClause thenClause (insertSubjects q ifClause thenClause ⟨none, none⟩)

theorem negotiateDeepSearch_ok (verbsCsv : List Str) :
    (∃ request, negotiateDeepSearch q ifClause thenClause verbsCsv = .ok request) ↔
      ∃ p, insertTemp ifClause thenClause (places q ifClause thenClause) = .ok p := by
  change (∃ request, (insertTemp ifClause thenClause (places q ifClause thenClause)).bind _ =
    .ok request) ↔ _
  cases insertTemp ifClause thenClause (places q ifClause thenClause) with
  | error e => simp [Except.bind]
  | ok p => exact iff_of_true ⟨_, rfl⟩ ⟨p, rfl⟩

variable {q ifClause thenClause}

/-- Whether there are objects when the if-clause has no variable among its own. -/
theorem places_objects (h : variableIn ifClause.objects = none) :
    (places q ifClause thenClause).objects.isNone = !((variableIn ifClause.subjects).isSome &&
      if (variableIn thenClause.subjects).isSome then
        lastMatch thenClause.objects ifClause.objects
      else (variableIn thenClause.objects).isSome &&
        lastMatch thenClause.objects ifClause.subjects) := by
  cases hif : variableIn ifClause.subjects with
  | none => simp [places, insertObjects, insertSubjects, h, hif]
  | some c =>
      cases hthen : variableIn thenClause.subjects with
      | none =>
          cases hobjects : variableIn thenClause.objects with
          | none => simp [places, insertObjects, insertSubjects, hthen, hobjects]
          | some a =>
              cases hmatch : lastMatch thenClause.objects ifClause.subjects <;>
                simp [places, insertObjects, insertSubjects, h, hif, hthen, hobjects, hmatch]
      | some b =>
          cases hmatch : lastMatch thenClause.objects ifClause.objects <;>
            simp [places, insertObjects, insertSubjects, h, hif, hthen, hmatch]

theorem insertTemp_of_some {p : Places} (h : variableIn thenClause.objects = none ∨
    variableIn ifClause.objects ≠ none ∨ p.objects.isNone = false) :
    insertTemp ifClause thenClause p = .ok p := by
  unfold insertTemp
  rcases h with h | h | h
  · rw [h]
    rfl
  · rw [← Option.isSome_iff_ne_none] at h
    simp [Option.isNone_iff_eq_none, Option.ne_none_iff_isSome.mpr h]
  · simp [h]

theorem insertTemp_compares {p : Places} {a : Str} (h : variableIn thenClause.objects = some a)
    (hif : variableIn ifClause.objects = none) (hp : p.objects.isNone = true) :
    (∃ p', insertTemp ifClause thenClause p = .ok p') ↔ ∃ differs,
      namesDiffer (some a) (variableIn thenClause.subjects) (variableIn ifClause.subjects) =
        .ok differs ∧ (differs = true → TempFits ifClause.objects) := by
  have hinsert : insertTemp ifClause thenClause p =
      (namesDiffer (some a) (variableIn thenClause.subjects) (variableIn ifClause.subjects)).bind
        fun differs =>
          if differs then (fillTemp 0 0 [] ifClause.objects).bind fun temp =>
            .ok { p with objects := some (fakeSynonyms temp) }
          else .ok p := by
    simp only [insertTemp, h, hif, hp]
    rfl
  rw [hinsert, ← fillTemp_zero_iff]
  cases namesDiffer (some a) (variableIn thenClause.subjects) (variableIn ifClause.subjects) with
  | error e => simp [Except.bind]
  | ok differs =>
      cases differs with
      | false => simp [Except.bind]
      | true =>
          cases fillTemp 0 0 [] ifClause.objects with
          | error e => simp [Except.bind]
          | ok temp => simp [Except.bind]

theorem namesDiffer_none (a : Str) (c : Option Str) :
    namesDiffer (some a) none c = .error .nullString := rfl

theorem namesDiffer_same (a : Str) (c : Option Str) : namesDiffer (some a) (some a) c = .ok false := by
  simp [namesDiffer, strcmp, bind, Except.bind]

theorem namesDiffer_other {a b : Str} (h : a ≠ b) (c : Option Str) :
    namesDiffer (some a) (some b) c = strcmp (some a) c := by
  simp [namesDiffer, strcmp, bind, Except.bind, h]

/-- When no null string is compared and the objects of the if-clause have room: by the variables in
the objects and in the subjects of the clauses. -/
def Safe (ifClause thenClause : Fact) : Prop :=
  match variableIn thenClause.objects, variableIn ifClause.objects,
    variableIn thenClause.subjects, variableIn ifClause.subjects with
  | none, _, _, _ => True
  | some _, some _, _, _ => True
  | some _, none, none, none => False
  | some _, none, none, some _ => lastMatch thenClause.objects ifClause.subjects = true
  | some a, none, some b, none => a = b
  | some a, none, some b, some c =>
      lastMatch thenClause.objects ifClause.objects = true ∨ a = b ∨ a = c ∨
        TempFits ifClause.objects

theorem negotiateDeepSearch_safe_iff (verbsCsv : List Str) (q : Question)
    (ifClause thenClause : Fact) :
    (∃ request, negotiateDeepSearch q ifClause thenClause verbsCsv = .ok request) ↔
      Safe ifClause thenClause := by
  rw [negotiateDeepSearch_ok, Safe]
  cases ha : variableIn thenClause.objects with
  | none => exact iff_of_true ⟨_, insertTemp_of_some (Or.inl ha)⟩ trivial
  | some a =>
      cases hif : variableIn ifClause.objects with
      | some _ => exact iff_of_true ⟨_, insertTemp_of_some (Or.inr (Or.inl (by simp [hif])))⟩ trivial
      | none =>
          have hplaces := @places_objects q ifClause thenClause hif
          have hgiven := @insertTemp_of_some ifClause thenClause (places q ifClause thenClause)
          have hcompares := @insertTemp_compares ifClause thenClause (places q ifClause thenClause) a
            ha hif
          cases hb : variableIn thenClause.subjects with
          | none =>
              cases hc : variableIn ifClause.subjects with
              | none =>
                  simp only [hc, Option.isSome_none, Bool.false_and, Bool.not_false] at hplaces
                  rw [hcompares hplaces, hb, namesDiffer_none]
                  simp
              | some c =>
                  simp only [ha, hb, hc, Option.isSome_none, Option.isSome_some, Bool.true_and,
                    Bool.false_eq_true, if_false] at hplaces
                  cases hmatch : lastMatch thenClause.objects ifClause.subjects with
                  | true =>
                      rw [hmatch] at hplaces
                      exact iff_of_true ⟨_, hgiven (Or.inr (Or.inr hplaces))⟩ rfl
                  | false =>
                      rw [hmatch] at hplaces
                      rw [hcompares hplaces, hb, namesDiffer_none]
                      simp
          | some b =>
              cases hc : variableIn ifClause.subjects with
              | none =>
                  simp only [hc, Option.isSome_none, Bool.false_and, Bool.not_false] at hplaces
                  rw [hcompares hplaces, hb, hc]
                  by_cases hab : a = b
                  · simp [hab, namesDiffer_same]
                  · simp [hab, namesDiffer_other hab, strcmp]
              | some c =>
                  simp only [hb, hc, Option.isSome_some, Bool.true_and, if_true] at hplaces
                  cases hmatch : lastMatch thenClause.objects ifClause.objects with
                  | true =>
                      rw [hmatch] at hplaces
                      exact iff_of_true ⟨_, hgiven (Or.inr (Or.inr hplaces))⟩ (Or.inl rfl)
                  | false =>
                      rw [hmatch] at hplaces
                      rw [hcompares hplaces, hb, hc]
                      by_cases hab : a = b
                      · simp [hab, namesDiffer_same]
                      · by_cases hac : a = c
                        · simp [hac, namesDiffer_other (hac ▸ hab), strcmp]
                        · simp [hab, hac, namesDiffer_other hab, strcmp]

def clause (subjects objects : List Str) : Fact where
  subjects := subjects.map Word.mk
  objects := objects.map Word.mk
  verbs := [⟨"mag".toList⟩]
  adverbs := []
  extra := []
  questionword := "wenn".toList
  filename := []
  truth := 1
  pk := 1

def emptyQuestion : Question :=
  ⟨⟨[], [], [], []⟩, [], [], [], [], [], [], "q_deep_search".toList, 1, forward⟩

/-- Only the objects of the then-clause hold a variable. -/
theorem negotiate_nullString :
    negotiateDeepSearch emptyQuestion (clause ["peter".toList] ["tiere".toList])
      (clause ["anna".toList] ["$a$".toList]) [] = .error .nullString := rfl

end Freehal.Universal.Negotiating
