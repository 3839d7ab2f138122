import Freehal.Ram.Net
import Freehal.Ram.Theorems
import Freehal.Universal.Variables

/-!
# Questions to the engine in memory

`search_facts_simple` of `hal2012-universal.c`. The search hands out pointers to the stored facts,
and what replaces variables and verbs writes through them.
-/

namespace Freehal.Ram

open Universal (Word Group Request Config Level Binding Bindings Matcher strstr isAFactVerb
  isAEqualVerb isConditionalQuestionword factMatchesEntityByEntity filterListByRules
  replaceVariablesInWord replaceVariablesInWords)
open Disk (divideWords)
open Lib (Block)

/-- The language of the texts, and `limit-amount-of-answers` of the configuration. -/
structure Settings where
  lang : Str
  limitAmountOfAnswers : Str

/-- The search sets `config_match_variables` to 0. -/
def Settings.config (settings : Settings) : Config := ⟨false, settings.lang⟩

def Settings.limit (settings : Settings) : Int :=
  if settings.limitAmountOfAnswers = "1".toList then 10000 else 100000

/-- A pointer to an array of words, or `INVALID_POINTER`. -/
abbrev GroupPointer := Option Nat

/-- A question, with the synonyms that are left of it when the search begins. -/
structure Question where
  /-- the words behind a pointer -/
  words : Nat → List (Option Word)
  subjects : List GroupPointer
  objects : List GroupPointer
  adverbs : List GroupPointer
  extra : List GroupPointer
  /-- `subject_syonyms_level_0` -/
  subjectSynonymsLevel0 : List GroupPointer
  verbs : Str
  context : Str
  level : Level

def Question.groups (q : Question) (pointers : List GroupPointer) : List Group :=
  pointers.map fun pointer => pointer.map q.words

def Question.request (q : Question) : Request where
  subjects := q.groups q.subjects
  objects := q.groups q.objects
  verbs := divideWords q.verbs
  adverbs := q.groups q.adverbs
  adverbsAny := false
  extra := q.groups q.extra
  context := q.context

/-- What stands in front of the first invalid pointer. -/
def validPrefix {α : Type} : List (Option α) → List α
  | some a :: list => a :: validPrefix list
  | _ => []

/-- The facts, and `variable_replacements`. -/
structure Memory where
  engine : Engine
  bindings : Bindings

/-! ## Searching and filtering -/

section

variable (settings : Settings) (q : Question)

def searchFactsForWordsInNet (s : Engine) (pointers : List GroupPointer) (facts : List Nat) :
    List Nat :=
  searchGroups settings.config s (fun pointer => validPrefix (q.words pointer)) settings.limit facts
    [] (validPrefix pointers)

/-- The words of the verb are an array of their own. -/
def searchFactsForVerbs (s : Engine) (facts : List Nat) : List Nat :=
  if (divideWords q.verbs).head? = some ⟨">>>".toList⟩ then
    searchGroups settings.config s (fun _ => divideWords q.verbs) settings.limit facts [] [0]
  else facts

def searchInNet (s : Engine) (hints : Str) : List Nat :=
  if q.context = "double_facts".toList then []
  else
    let facts := searchFactsForWordsInNet settings q s q.subjects []
    let facts := searchFactsForWordsInNet settings q s q.objects facts
    let facts := searchFactsForWordsInNet settings q s q.adverbs facts
    let facts :=
      if (q.context = "search_reasons".toList ∨ q.subjects.length < 3) ∧
          strstr hints "no-extra".toList = false then
        searchFactsForWordsInNet settings q s q.extra facts
      else facts
    searchFactsForVerbs settings q s facts

def searchAndFilter (s : Engine) (hints : Str) : Matcher (List Pointer) :=
  (fun list => list.map fun entry => entry.map (·.1)) <$>
    filterListByRules settings.config q.request q.level
      ((searchInNet settings q s hints).filterMap fun a => s.facts[a]?.map fun f => (a, f.toFact))

/-! ## Replacing -/

def replaceVariablesInFact (bindings : Bindings) (fact : Fact) : Fact :=
  { fact with toFact := Universal.replaceVariablesInFact bindings fact.toFact }

def replaceVariablesInList (bindings : Bindings) : List Pointer → Engine → Engine
  | [], s => s
  | none :: list, s => replaceVariablesInList bindings list s
  | some a :: list, s =>
      replaceVariablesInList bindings list (s.modifyFact a (replaceVariablesInFact bindings))

/-! ## The loop over the answers -/

def isAboutSubjects (fact : Fact) : Matcher Bool :=
  (fun r => decide (r ≠ 0)) <$> factMatchesEntityByEntity settings.config fact.objects
    (q.groups q.subjectSynonymsLevel0) .exact

/-- The fact comes from a file whose facts with such a verb are not given as answers. -/
def comesFromOtherFile (fact : Fact) : Matcher Bool :=
  pure (strstr fact.filename "thes".toList) <||> pure (strstr fact.filename "part_of_speech".toList)
    <||> (pure (strstr fact.filename "ps-".toList) <&&> isAboutSubjects settings q fact)
    <||> (pure (strstr fact.filename "fa-".toList) <&&> isAboutSubjects settings q fact)

/-- The first part of the loop. A fact that is set to invalid is `none`. -/
def reviewVerb (fact : Fact) : Matcher (Option Fact) :=
  match fact.verbs with
  | [] => pure (some fact)
  | verb :: _ =>
      if isAFactVerb verb.name ∧ q.verbs ≠ [] then do
        if ← comesFromOtherFile settings q fact then pure none
        else if isAEqualVerb verb.name then
          pure (some { fact with verbs := divideWords "equal".toList })
        else pure (some fact)
      else pure (some fact)

/-- The second part of the loop, over an array of clauses that was made for it. -/
def hasConditionalClause (s : Engine) (pk : Int) : Option Bool := do
  match ← ramSearchClauses pk s with
  | none => return false
  | some clauses =>
      return (validPrefix (clauses.cells.map Option.join)).any fun clause =>
        (s.facts[clause]?).any fun f => isConditionalQuestionword f.questionword

/-- One round of the loop. -/
def reviewFact (a : Nat) (m : Memory) : Option (Pointer × Memory) := do
  let fact ← m.engine.facts[a]?
  let reviewed := (reviewVerb settings q fact).run m.bindings
  match reviewed.1 with
  | none => return (none, { m with bindings := reviewed.2 })
  | some fact =>
      let engine := m.engine.modifyFact a fun _ => fact
      let conditional ← hasConditionalClause engine fact.pk
      return (if conditional then none else some a, ⟨engine, reviewed.2⟩)

def reviewList : List Pointer → Memory → Option (List Pointer × Memory)
  | [], m => some ([], m)
  | none :: list, m => do
      let rest ← reviewList list m
      return (none :: rest.1, rest.2)
  | some a :: list, m => do
      let first ← reviewFact settings q a m
      let rest ← reviewList list first.2
      return (first.1 :: rest.1, rest.2)

/-- The variables are replaced before the second search, which finds nothing to replace any more. -/
def searchFactsSimple (m : Memory) : Option (List Pointer × Memory) :=
  let found := (searchAndFilter settings q m.engine "no-extra".toList).run m.bindings
  let engine := replaceVariablesInList found.2 found.1 m.engine
  if found.1.filterMap id = [] then
    let more := (searchAndFilter settings q engine []).run found.2
    reviewList settings q more.1 ⟨engine, more.2⟩
  else reviewList settings q found.1 ⟨engine, found.2⟩

end

end Freehal.Ram
