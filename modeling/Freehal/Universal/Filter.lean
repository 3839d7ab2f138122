import Freehal.Universal.Theorems

/-!
# Filtering the facts of a search

`filter_list_by_rules` of `hal2012-universal.c`: the rules of the question word and what becomes of
the facts that match. What is set to invalid is `none` here, and output for the log is left out.
-/

namespace Freehal.Universal
open Lib

/-- The truth is a float, and none is between 0.1 and the constant of the source. -/
def factMatchesTruth (fact : Fact) : Bool := decide (1 / 10 < fact.truth)

/-! ## The question word -/

def hasOneOf (words : List Word) (names : List String) : Bool :=
  words.any fun w => names.any fun name => decide (w.name = name.toList)

def isBe (request : Request) : Bool :=
  request.verbs.head?.any fun verb => strstr verb.name "|ist|".toList

def factMatchesQuestionwordRulesOfQWhatWeakly (_ : Fact) (_ : Request) : Bool := true

def factMatchesQuestionwordRulesOfQWhatExtra (_ : Fact) (_ : Request) : Bool := true

def factMatchesQuestionwordRulesOfQWhatExactly (fact : Fact) (_ : Request) : Bool :=
  hasOneOf fact.subjects ["ein", "eine", "(a)"] || hasOneOf fact.objects ["ein", "eine", "(a)"]

def factMatchesQuestionwordRulesOfQWho (fact : Fact) (_ : Request) : Bool :=
  !(hasOneOf fact.subjects ["ein", "eine"] || hasOneOf fact.objects ["ein", "eine"])

def factMatchesQuestionwordRulesOfQWhere (fact : Fact) (request : Request) : Bool :=
  hasOneOf fact.adverbs ["in", "an", "from", "at", "auf", "aus"]
    || (!isBe request && hasOneOf fact.adverbs ["von"])
    || fact.verbs.any fun verb => beginsWith verb.name "is-part".toList

def factMatchesQuestionwordRulesOfQHow (fact : Fact) (request : Request) : Bool :=
  isBe request || !hasOneOf fact.adverbs ["in", "an", "from", "at", "auf", "aus", "von"]

def factMatchesQuestionwordRulesOfQFromWhere (fact : Fact) (_ : Request) : Bool :=
  hasOneOf fact.adverbs ["aus", "von", "from", "durch", "von"]

def factMatchesQuestionwordRules (fact : Fact) (request : Request) : Bool :=
  if request.context = "q_what_weakly".toList then
    factMatchesQuestionwordRulesOfQWhatWeakly fact request
  else if request.context = "q_what_nowiki".toList then
    factMatchesQuestionwordRulesOfQWhatWeakly fact request
  else if request.context = "q_what_exactly".toList then
    factMatchesQuestionwordRulesOfQWhatExactly fact request
  else if request.context = "q_what_extra".toList then
    factMatchesQuestionwordRulesOfQWhatExtra fact request
  else if request.context = "q_who".toList then factMatchesQuestionwordRulesOfQWho fact request
  else if request.context = "q_where".toList then
    factMatchesQuestionwordRulesOfQWhere fact request
  else if request.context = "q_how".toList then factMatchesQuestionwordRulesOfQHow fact request
  else if request.context = "q_from_where".toList then
    factMatchesQuestionwordRulesOfQFromWhere fact request
  else if request.context = "search_reasons".toList then
    factMatchesQuestionwordRulesOfSearchReasons fact
  else true

/-! ## The filter -/

section

variable {ι : Type}

/-- The first loop, over the pointers and the facts behind them. -/
def filterFacts (cfg : Config) (request : Request) (level : Level) :
    List (ι × Fact) → Matcher (List (Option (ι × Fact)))
  | [] => pure []
  | entry :: list => do
      let kept ← filterFactByRules cfg entry.2 request level
      let rest ← filterFacts cfg request level list
      pure ((kept.map fun fact => (entry.1, fact)) :: rest)

/-- The facts without the condition are set to invalid. -/
def keepIf (p : Fact → Bool) (list : List (Option (ι × Fact))) : List (Option (ι × Fact)) :=
  list.map fun entry => entry.filter fun e => p e.2

/-- All facts that matched are counted before any of them is set to invalid. -/
def filterByCounts (request : Request) (list : List (Option (ι × Fact))) :
    List (Option (ι × Fact)) :=
  let facts := (list.filterMap id).map (·.2)
  let countOfFacts := facts.length
  let countOfTrueFacts := facts.countP factMatchesTruth
  let countOfContextMatchingFacts :=
    facts.countP fun fact => factMatchesQuestionwordRules fact request
  let list :=
    if 1 ≤ countOfTrueFacts ∧ 10 ≤ countOfFacts ∧
        countOfTrueFacts / 2 < countOfFacts - countOfTrueFacts then
      keepIf factMatchesTruth list
    else list
  if 1 ≤ countOfContextMatchingFacts then
    keepIf (fun fact => factMatchesQuestionwordRules fact request) list
  else list

def filterListByRules (cfg : Config) (request : Request) (level : Level) (list : List (ι × Fact)) :
    Matcher (List (Option (ι × Fact))) :=
  filterByCounts request <$> filterFacts cfg request level list

end

variable {cfg : Config}

/-! ## What is recorded does not matter -/

theorem filterFactByRules_related (fact : Fact) (request : Request) (level : Level) :
    Related Eq (filterFactByRules cfg fact request level)
      (filterFactByRules cfg fact request level) := by
  have hrules := (factMatchesRules_relaxes cfg fact request
    (Level.Relaxed.refl (filterLevel fact request level))).eq
  exact hrules.bind fun a b hab => Related.pure (by rw [hab])

theorem filterFacts_related {ι : Type} (request : Request) (level : Level)
    (list : List (ι × Fact)) :
    Related Eq (filterFacts cfg request level list) (filterFacts cfg request level list) := by
  induction list with
  | nil => exact Related.pure rfl
  | cons entry list ih =>
      rw [filterFacts]
      refine (filterFactByRules_related entry.2 request level).bind fun a b hab => ?_
      exact ih.bind fun r t hrt => Related.pure (by rw [hab, hrt])

/-- Which facts are kept does not depend on what was recorded before. -/
theorem filterListByRules_related {ι : Type} (request : Request) (level : Level)
    (list : List (ι × Fact)) :
    Related Eq (filterListByRules cfg request level list)
      (filterListByRules cfg request level list) :=
  (filterFacts_related request level list).map _ _ fun a b hab => by rw [hab]

/-! ## What is kept -/

theorem filterFactByRules_returns (fact : Fact) (request : Request) (level : Level) :
    Returns (fun kept => kept = none ∨ kept = some fact)
      (filterFactByRules cfg fact request level) := by
  intro s
  have hbool : ∀ b : Bool, (if b then some fact else none) = none ∨
      (if b then some fact else none) = some fact := by
    intro b
    cases b with
    | false => exact Or.inl rfl
    | true => exact Or.inr rfl
  exact hbool _

theorem filterFacts_returns {ι : Type} (request : Request) (level : Level)
    (list : List (ι × Fact)) : Returns (fun kept => (kept.filterMap id).Sublist list)
      (filterFacts cfg request level list) := by
  induction list with
  | nil => exact Returns.pure (List.Sublist.refl [])
  | cons entry list ih =>
      rw [filterFacts]
      refine (filterFactByRules_returns entry.2 request level).bind fun kept hkept => ?_
      refine ih.bind fun rest hrest => Returns.pure ?_
      rcases hkept with rfl | rfl
      · exact hrest.cons entry
      · exact hrest.cons_cons entry

theorem filterMap_keepIf {ι : Type} (p : Fact → Bool) (list : List (Option (ι × Fact))) :
    ((keepIf p list).filterMap id).Sublist (list.filterMap id) := by
  induction list with
  | nil => exact List.Sublist.refl []
  | cons entry list ih =>
      cases entry with
      | none => exact ih
      | some e =>
          rw [keepIf, List.map_cons]
          by_cases hp : p e.2 = true
          · rw [Option.filter_some, if_pos hp]
            exact ih.cons_cons e
          · rw [Option.filter_some, if_neg hp]
            exact ih.cons e

theorem filterByCounts_sublist {ι : Type} (request : Request) (list : List (Option (ι × Fact))) :
    ((filterByCounts request list).filterMap id).Sublist (list.filterMap id) := by
  have hif : ∀ (c : Prop) [Decidable c] (p : Fact → Bool) (l : List (Option (ι × Fact))),
      ((if c then keepIf p l else l).filterMap id).Sublist (l.filterMap id) := by
    intro c _ p l
    split
    · exact filterMap_keepIf p l
    · exact List.Sublist.refl _
  exact (hif _ _ _).trans (hif _ _ _)

/-- The facts that are left are some of the list, in its order. -/
theorem filterListByRules_returns {ι : Type} (request : Request) (level : Level)
    (list : List (ι × Fact)) :
    Returns (fun kept => (kept.filterMap id).Sublist list)
      (filterListByRules cfg request level list) :=
  (filterFacts_returns request level list).bind fun kept hkept =>
    Returns.pure ((filterByCounts_sublist request kept).trans hkept)

end Freehal.Universal
