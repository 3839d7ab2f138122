import Freehal.Universal.Text

/-!
# Matching facts against a request

The match functions of `hal2012-universal.c`. The words of a fact are valid pointers; the words
and the groups of words of a request may be `INVALID_POINTER`, which is `none` here. Output for
the log is left out.
-/

namespace Freehal.Universal

structure Fact where
  subjects : List Word
  objects : List Word
  verbs : List Word
  adverbs : List Word
  extra : List Word
  questionword : Str
  filename : Str
  truth : Rat
  pk : Int
deriving DecidableEq

/-- A group of words, one of several synonyms. -/
abbrev Group := Option (List (Option Word))

structure Request where
  subjects : List Group
  objects : List Group
  verbs : List Word
  adverbs : List Group
  adverbsAny : Bool
  extra : List Group
  context : Str

inductive Level where
  | veryExact | exact | weak
deriving DecidableEq

/-! ## Bindings -/

/-- A variable of a fact and the number that was matched with it. -/
structure Binding where
  variable_ : Word
  number : Word
deriving DecidableEq

/-- `variable_replacements`, pair by pair. -/
abbrev Bindings := List Binding

/-- `variable_replacements_c`, the double of the number of pairs, is below 97. -/
def record (bindings : Bindings) (b : Binding) : Bindings :=
  if 2 * bindings.length < 97 then bindings ++ [b] else bindings

/-- The match functions write the global array of bindings. -/
abbrev Matcher := StateM Bindings

/-! ## Words -/

/-- The condition under which a word of the fact ends the loop. -/
def wordMatches (cfg : Config) (word w : Word) : Bool :=
  isGood w.name && (matchesWithPipe word.name w.name
    || (cfg.matchVariables && isAVariable w.name && !isAVariable word.name))

def matchInArray (cfg : Config) (word : Word) : List Word → Matcher Bool
  | [] => pure false
  | w :: words =>
      if wordMatches cfg word w then do
        if isAVariable w.name && toNumber word.name ≠ 0 then modify (record · ⟨w, word⟩)
        pure true
      else matchInArray cfg word words

/-- The words are those from `words_begin` to `words_end`. -/
def wordMatchesWordArray (cfg : Config) (word : Word) (words : List Word) : Matcher Bool :=
  if beginsWith word.name "%".toList then pure true
  else if strstr word.name "$$time$$".toList then pure true
  else matchInArray cfg word words

def diff (a b : Nat) : Nat := if a > b then a - b else b - a

/-! ## Entities -/

/-- The counters of a group and the level, which a variable changes for good. -/
structure GroupState where
  doesMatch : Nat := 0
  shouldMatch : Int := 0
  allowMatch : Bool := true
  flags : Level

def matchGroup (cfg : Config) (words : List Word) (checkLogicOperators : Bool) :
    List (Option Word) → GroupState → Matcher GroupState
  | [], st => pure st
  | none :: group, st => matchGroup cfg words checkLogicOperators group st
  | some word :: group, st =>
      if isAVariable word.name then
        matchGroup cfg words checkLogicOperators group
          { st with flags := .weak, doesMatch := st.doesMatch + 1, shouldMatch := st.shouldMatch + 1 }
      else if isATrivialWord cfg word.name then matchGroup cfg words checkLogicOperators group st
      else if strstr word.name "time_".toList then
        matchGroup cfg words checkLogicOperators group { st with shouldMatch := st.shouldMatch - 10 }
      else if checkLogicOperators && word.name = "&".toList then
        matchGroup cfg words checkLogicOperators group
          { st with allowMatch := st.doesMatch ≠ 0 && st.allowMatch, doesMatch := 0, shouldMatch := 0 }
      else if checkLogicOperators && word.name = "|".toList then
        if st.doesMatch ≠ 0 then pure { st with allowMatch := true }
        else matchGroup cfg words checkLogicOperators group { st with allowMatch := true }
      else do
        let matched ← if st.allowMatch then wordMatchesWordArray cfg word words else pure false
        matchGroup cfg words checkLogicOperators group
          { st with
            doesMatch := st.doesMatch + matched.toNat
            shouldMatch := st.shouldMatch + 1 }

/-- What `does_match` becomes after a group, when it was 0 before. -/
def groupDoesMatch (cfg : Config) (segment : List Word) (group : List Word) (st : GroupState) : Bool :=
  let givenTrivial := segment.length
  let givenImportant := segment.countP fun w => isImportantWord cfg w.name
  let requestTrivial := group.length
  let requestImportant := group.countP fun w => isImportantWord cfg w.name
  let doesMatch := st.shouldMatch ≠ 0 && decide (st.shouldMatch ≤ st.doesMatch)
  match st.flags with
  | .weak => doesMatch || st.doesMatch ≠ 0
  | .exact => doesMatch && (decide (st.doesMatch ≤ segment.length) || decide (givenTrivial < 2)
      || (decide (diff givenTrivial requestTrivial < 2)
        && decide (diff givenImportant requestImportant ≤ 0)))
  | .veryExact => doesMatch && (decide (givenTrivial < 2)
      || (decide (diff givenTrivial requestTrivial < 1)
        && decide (diff givenImportant requestImportant ≤ 0)))

/-- `count_requests`, the level and `does_match` after a loop over the groups. -/
structure SegmentState where
  countRequests : Nat := 0
  doesMatch : Bool := false
  flags : Level

/-- The loop ends at a group without words, and when a group has matched. -/
def matchGroups (cfg : Config) (segment : List Word) :
    List Group → SegmentState → Matcher SegmentState
  | [], st => pure st
  | none :: groups, st => matchGroups cfg segment groups st
  | some [] :: _, st => pure st
  | some (word :: rest) :: groups, st => do
      let group := (word :: rest).filterMap id
      let checkLogicOperators := group.any fun w => w.name = "&".toList
      let groupState ← matchGroup cfg segment checkLogicOperators (word :: rest) { flags := st.flags }
      let st : SegmentState :=
        { countRequests := st.countRequests + (if group = [] then 0 else 1)
          doesMatch := groupDoesMatch cfg segment group groupState
          flags := groupState.flags }
      if st.doesMatch then pure st else matchGroups cfg segment groups st

/-- The words that make every level a weak one. -/
def makesWeak (cfg : Config) (w : Word) : Bool :=
  isGood w.name && !isATrivialWord cfg w.name
    && ["genauso", "wie\x7b\x7b\x7badj\x7d\x7d\x7d", "$$aswellas$$", "$$notaswellas$$"].any
      fun part => strstr w.name part.toList

/-- The loop over `words_i`: `segment` is the part of `words` since the last `|`. -/
def matchSegments (cfg : Config) (words : List Word) (request : List Group) :
    List Word → List Word → Level → Matcher Int
  | segment, w :: rest, flags =>
      if w.name ≠ "|".toList then matchSegments cfg words request (segment ++ [w]) rest flags
      else do
        let flags := if flags = .weak then .exact else flags
        let flags := if words.any (makesWeak cfg) then .weak else flags
        let st ← matchGroups cfg segment request { flags := flags }
        if st.countRequests = 0 then pure (-1)
        else if st.doesMatch then pure 1
        else matchSegments cfg words request [] rest st.flags
  | segment, [], flags => do
      let flags := if words.any (makesWeak cfg) then .weak else flags
      let st ← matchGroups cfg segment request { flags := flags }
      if st.countRequests = 0 then pure (-1)
      else if st.doesMatch then pure 1
      else pure 0

def factMatchesEntityByEntity (cfg : Config) (words : List Word) (request : List Group)
    (flags : Level) : Matcher Int :=
  if request = [] then pure (-1) else matchSegments cfg words request [] words flags

/-! ## Fields -/

/-- The value that stands for -1. -/
def orElse (doesMatch : Int) (unknown : Bool) : Bool :=
  if doesMatch = -1 then unknown else doesMatch ≠ 0

def entityOr (cfg : Config) (words : List Word) (request : List Group) (level : Level)
    (unknown : Bool) : Matcher Bool :=
  (orElse · unknown) <$> factMatchesEntityByEntity cfg words request level

variable (cfg : Config) (fact : Fact) (request : Request)

def factMatchesSubjectBySubject (level : Level) : Matcher Bool :=
  entityOr cfg fact.subjects request.subjects level true

def factMatchesObjectBySubject (level : Level) : Matcher Bool :=
  entityOr cfg fact.objects request.subjects level false

def factMatchesSubjectByObject (level : Level) : Matcher Bool :=
  entityOr cfg fact.subjects request.objects level (request.context ≠ "q_what_weakly".toList)

def factMatchesObjectByObject (level : Level) : Matcher Bool :=
  entityOr cfg fact.objects request.objects level true

def factMatchesAdverbByAdverb (level : Level) : Matcher Bool :=
  if request.adverbsAny then pure true
  else entityOr cfg fact.adverbs request.adverbs level true

def factMatchesAdverbByObject (level : Level) : Matcher Bool :=
  entityOr cfg fact.adverbs request.objects level false

def factMatchesObjectByAdverb (level : Level) : Matcher Bool :=
  entityOr cfg fact.objects request.adverbs level false

def extraUnknown (words : List Word) : Matcher Bool :=
  (decide <| · < 0) <$> factMatchesEntityByEntity cfg words request.extra .weak

def extraMatches (words : List Word) : Matcher Bool :=
  (decide <| 0 < ·) <$> factMatchesEntityByEntity cfg words request.extra .weak

def factMatchesAnythingByExtra : Matcher Bool :=
  (extraUnknown cfg request fact.subjects <&&> extraUnknown cfg request fact.objects
    <&&> extraUnknown cfg request fact.adverbs <&&> extraUnknown cfg request fact.extra)
  <||> extraMatches cfg request fact.subjects <||> extraMatches cfg request fact.objects
  <||> extraMatches cfg request fact.adverbs <||> extraMatches cfg request fact.extra

/-- A subject or an object begins with a letter from a to g. -/
def factMatchesQuestionwordRulesOfSearchReasons : Bool :=
  (fact.subjects ++ fact.objects).any fun w => w.name.head?.any fun c => 'a' ≤ c && c ≤ 'g'

def verbMatches (verb : Word) : Bool :=
  (divideBy '|' verb.name).any fun piece => fact.verbs.any fun w => beginsWith w.name piece

def factMatchesVerb : Bool := request.verbs.all (verbMatches fact)

/-! ## Facts -/

/-- The level that the fact is matched with. -/
def filterLevel (level : Level) : Level :=
  let level := if level = .exact ∧ request.context = "reasonof".toList then .weak else level
  if fact.verbs.any fun w => beginsWith w.name "is-property".toList then .weak else level

/-- The condition in `filter_fact_by_rules`, evaluated from left to right. -/
def factMatchesRules (level : Level) : Matcher Bool :=
  pure (factMatchesVerb fact request)
  <&&> ((factMatchesSubjectBySubject cfg fact request level
          <&&> (factMatchesObjectByObject cfg fact request level
            <||> factMatchesObjectByAdverb cfg fact request level
            <||> factMatchesAdverbByObject cfg fact request level))
        <||> (pure (decide (request.context ≠ "q_what_extra".toList))
          <&&> factMatchesObjectBySubject cfg fact request level
          <&&> factMatchesSubjectByObject cfg fact request level)
        <||> pure (request.context = "search_reasons".toList
          && factMatchesQuestionwordRulesOfSearchReasons fact)
        <||> pure (decide (request.context = "just_verb".toList)))
  <&&> (factMatchesAdverbByAdverb cfg fact request level
        <||> factMatchesAdverbByObject cfg fact request level
        <||> factMatchesObjectByAdverb cfg fact request level)
  <&&> factMatchesAnythingByExtra cfg fact request

/-- `none` is the fact that was set to invalid. -/
def filterFactByRules (level : Level) : Matcher (Option Fact) := do
  let doesMatch ← factMatchesRules cfg fact request (filterLevel fact request level)
  pure (if doesMatch then some fact else none)

end Freehal.Universal
