import Freehal.Ram.Sessions

/-!
# All searches for a question

`search_facts` of `hal2012-universal.c`, built with `hal2012-wiki-dummy.c`: the searches that are
tried until one of them has answers, first exactly and then weakly.
-/

namespace Freehal.Ram

open Universal (Config strstr isAFactVerb isAEqualVerb)

/-- The texts that a round of searches depends on, and its requests. They come from the synonyms,
from which the searches delete words, so that no two of them need to be alike. -/
structure Round where
  context : Str
  verbs : Str
  /-- `config_match_variables` when the round begins -/
  matchVariables : Bool
  doubleFacts : Question
  simple : Nat → Question
  general : Nat → Question
  deep : DeepQuestion
  thesaurus : Question

/-- The list of answers so far, or a null pointer, and the memory. -/
structure Progress where
  list : Option (List Pointer)
  memory : Memory

/-- There is no list, or no valid pointer in it. -/
def Progress.isMissing (p : Progress) : Bool := (p.list.getD []).all Option.isNone

section

variable (settings : Settings)

/-! ## The searches -/

def searchFactsDoubleFacts (matchVariables : Bool) (q : Question) (m : Memory) :
    List Pointer × Memory :=
  let found := (searchAndFilterBy settings q ⟨matchVariables, settings.lang⟩ m.engine []).run
    m.bindings
  (found.1, ⟨m.engine, found.2⟩)

/-- The loop of `search_facts_thesaurus`. It reads the first verb of each fact, and there may be
none. -/
def equalizeVerbs : List Pointer → Engine → Option Engine
  | [], s => some s
  | none :: list, s => equalizeVerbs list s
  | some a :: list, s => do
      let fact ← s.facts[a]?
      let verb ← fact.verbs.head?
      equalizeVerbs list (if isAEqualVerb verb.name then s.modifyFact a Fact.withEqual else s)

def searchFactsThesaurus (q : Question) (m : Memory) : Option (List Pointer × Memory) := do
  let found := (searchAndFilter settings q m.engine []).run m.bindings
  let engine ← equalizeVerbs found.1 m.engine
  return (found.1, ⟨engine, found.2⟩)

/-- The loop over the levels of the simple search. -/
def searchFactsSimpleLevels (request : Nat → Question) : List Nat → Progress → Option Progress
  | [], p => some p
  | level :: levels, p =>
      if p.isMissing then do
        let found ← searchFactsSimple settings (request level) p.memory
        searchFactsSimpleLevels request levels ⟨some found.1, found.2⟩
      else some p

/-! ## A round -/

/-- The levels up to 3. -/
def Round.levels (r : Round) (first : Nat) : List Nat :=
  let first := if r.context = "nosynonyms".toList then 1 else first
  List.range' first (4 - first)

def doubleFactsStage (r : Round) (p : Progress) : Progress :=
  if r.context = "double_facts".toList ∧ p.isMissing = true then
    let found := searchFactsDoubleFacts settings r.matchVariables r.doubleFacts p.memory
    ⟨some found.1, found.2⟩
  else p

def simpleStage (r : Round) (p : Progress) : Option Progress :=
  if p.isMissing then searchFactsSimpleLevels settings r.simple (r.levels 0) p else some p

def Round.hasGeneralVerb (r : Round) : Bool :=
  (r.verbs.head?.any fun c => decide (c ≠ '0') && decide (c ≠ ' ')) &&
    strstr r.verbs "|do_general".toList

def generalStage (r : Round) (p : Progress) : Option Progress :=
  if p.isMissing && r.hasGeneralVerb then
    searchFactsSimpleLevels settings r.general (r.levels 2) p
  else some p

def deepStage (r : Round) (p : Progress) : Option Progress :=
  if p.isMissing then do
    let found ← searchFactsDeep settings r.deep p.memory
    return ⟨found.1.or p.list, found.2⟩
  else some p

def Round.wantsThesaurus (r : Round) : Bool :=
  isAFactVerb r.verbs || strstr r.context "where".toList

def thesaurusStage (r : Round) (p : Progress) : Option Progress :=
  if p.isMissing && r.wantsThesaurus then do
    let found ← searchFactsThesaurus settings r.thesaurus p.memory
    return ⟨some found.1, found.2⟩
  else some p

/-- The dummy of the wiki finds nothing, neither in the second nor in the sixth stage. -/
def searchFactsByWeakness (r : Round) (m : Memory) : Option Progress := do
  let p := doubleFactsStage settings r ⟨none, m⟩
  let p ← simpleStage settings r p
  let p ← generalStage settings r p
  let p ← deepStage settings r p
  thesaurusStage settings r p

def searchFacts (exact weak : Round) (m : Memory) : Option Progress := do
  let p ← searchFactsByWeakness settings exact m
  if p.isMissing then searchFactsByWeakness settings weak p.memory else some p

end

variable {settings : Settings} {m : Memory} {log : Log} {p : Progress} {r : Round} {s : Engine}

/-! ## What holds between the searches -/

/-- A request of the round. -/
inductive Round.Asks (r : Round) : Question → Prop where
  | doubleFacts : r.Asks r.doubleFacts
  | simple (level : Nat) : r.Asks (r.simple level)
  | general (level : Nat) : r.Asks (r.general level)
  | deep (negotiations : List Negotiation) : r.Asks (r.deep.negotiated negotiations)
  | thesaurus : r.Asks r.thesaurus

/-- The answers so far were found with requests that were made. -/
structure Sound (settings : Settings) (log : Log) (asks : Question → Prop) (s : Engine)
    (p : Progress) : Prop where
  memory : SessionMemory p.memory log
  rest : p.memory.engine.rest = s.rest
  nodup : ∀ l, p.list = some l → (l.filterMap id).Nodup
  inserted : ∀ l a, p.list = some l → some a ∈ l → ∃ q, asks q ∧ InsertedFor settings log q a

variable {asks : Question → Prop}

/-- A search that found these facts with one request. -/
theorem Sound.found {q : Question} {list : List Pointer} {m' : Memory} {hints : Str}
    (h : Sound settings log asks s p) (hq : asks q)
    (hsub : (list.filterMap id).Sublist (searchInNet settings q p.memory.engine hints))
    (hrest : m'.engine.rest = p.memory.engine.rest) (hbs : ∀ b ∈ m'.bindings, b.Recorded) :
    Sound settings log asks s ⟨some list, m'⟩ where
  memory := h.memory.of_rest hrest hbs
  rest := hrest.trans h.rest
  nodup l hl := Option.some.inj hl ▸ hsub.nodup (nodup_searchInNet settings q _ hints)
  inserted l a hl ha := by
    obtain rfl := Option.some.inj hl
    obtain ⟨w, hsearches, hrelated⟩ := (collected_searchInNet settings q _ hints).related a
      (hsub.subset (List.mem_filterMap.mpr ⟨_, ha, rfl⟩))
    exact ⟨q, hq, h.memory.insertedFor hsearches hrelated⟩

/-! ## The thesaurus search -/

/-- The fact has a first verb to read. -/
def hasVerb (s : Engine) (a : Nat) : Bool := (s.facts[a]?).any fun f => !f.verbs.isEmpty

def allHaveVerbs (s : Engine) (list : List Pointer) : Bool := list.all fun p => p.all (hasVerb s)

theorem hasVerb_withEqual {a : Nat} (ha : hasVerb s a = true) :
    hasVerb (s.modifyFact a Fact.withEqual) = hasVerb s := by
  funext b
  rw [hasVerb, facts_modifyFact]
  by_cases hab : a = b
  · subst hab
    rw [if_pos rfl, ha]
    obtain ⟨f, hf, -⟩ := (Option.any_eq_true _ _).mp ha
    rw [hf]
    rfl
  · rw [if_neg hab]
    rfl

theorem equalizeVerbs_spec (list : List Pointer) (s : Engine) :
    if allHaveVerbs s list then ∃ s', equalizeVerbs list s = some s' ∧ s'.rest = s.rest
    else equalizeVerbs list s = none := by
  induction list generalizing s with
  | nil => exact ⟨s, rfl, rfl⟩
  | cons q list ih =>
      have hcons : allHaveVerbs s (q :: list) = (q.all (hasVerb s) && allHaveVerbs s list) :=
        List.all_cons
      cases q with
      | none => exact ih s
      | some a =>
          rw [hcons, Option.all_some]
          cases ha : hasVerb s a with
          | false =>
              rw [hasVerb] at ha
              rw [Bool.false_and, if_neg (by decide), equalizeVerbs]
              cases hf : s.facts[a]? with
              | none => rfl
              | some f =>
                  have hverbs : f.verbs = [] := by simpa [hf] using ha
                  simp [hverbs]
          | true =>
              have hset : (s.modifyFact a Fact.withEqual).rest = s.rest := by
                have hupdate := @updateFacts_some a [] (by simp) s Fact.withEqual
                rw [updateFacts_nil] at hupdate
                rw [← hupdate]
                exact rest_updateFacts (by intro f; rfl) _ _
              obtain ⟨f, hf, hverbs⟩ := (Option.any_eq_true _ _).mp ha
              obtain ⟨verb, rest, hcase⟩ : ∃ verb rest, f.verbs = verb :: rest := by
                cases hcase : f.verbs with
                | nil => simp [hcase] at hverbs
                | cons verb rest => exact ⟨verb, rest, rfl⟩
              have hstep : equalizeVerbs (some a :: list) s = equalizeVerbs list
                  (if isAEqualVerb verb.name then s.modifyFact a Fact.withEqual else s) := by
                rw [equalizeVerbs, hf, Option.bind_eq_bind, Option.bind_some, hcase]
                rfl
              rw [hstep, Bool.true_and]
              by_cases hequal : isAEqualVerb verb.name = true
              · have hrest := ih (s.modifyFact a Fact.withEqual)
                rw [allHaveVerbs, hasVerb_withEqual ha, hset] at hrest
                rw [if_pos hequal]
                exact hrest
              · rw [if_neg hequal]
                exact ih s

/-- What the thesaurus search finds, before it reads the verbs. -/
def thesaurusList (settings : Settings) (q : Question) (m : Memory) : List Pointer :=
  ((searchAndFilter settings q m.engine []).run m.bindings).1

theorem Sound.thesaurus {q : Question} (h : Sound settings log asks s p) (hq : asks q) :
    if allHaveVerbs p.memory.engine (thesaurusList settings q p.memory) then
      ∃ found, searchFactsThesaurus settings q p.memory = some found ∧
        Sound settings log asks s ⟨some found.1, found.2⟩
    else searchFactsThesaurus settings q p.memory = none := by
  have hsub := searchAndFilter_sublist settings q p.memory.engine [] p.memory.bindings
  have hbs := (searchAndFilter_records settings q p.memory.engine []).forall h.memory.recorded
  have hspec := equalizeVerbs_spec (thesaurusList settings q p.memory) p.memory.engine
  rw [thesaurusList] at hspec ⊢
  split
  · case isTrue hverbs =>
      rw [if_pos hverbs] at hspec
      obtain ⟨s', hrun, hrest⟩ := hspec
      refine ⟨(_, ⟨s', _⟩), ?_, h.found hq hsub hrest hbs⟩
      simp only [searchFactsThesaurus, hrun, Option.bind_eq_bind, Option.bind_some]
      rfl
  · case isFalse hverbs =>
      rw [if_neg hverbs] at hspec
      simp only [searchFactsThesaurus, hspec, Option.bind_eq_bind, Option.bind_none]

/-! ## The stages -/

theorem Sound.simpleLevels {request : Nat → Question} (hrequest : ∀ level, asks (request level))
    (levels : List Nat) (h : Sound settings log asks s p) :
    ∃ p', searchFactsSimpleLevels settings request levels p = some p' ∧
      Sound settings log asks s p' := by
  induction levels generalizing p with
  | nil => exact ⟨p, rfl, h⟩
  | cons level levels ih =>
      rw [searchFactsSimpleLevels]
      split
      · obtain ⟨answers, m', hrun, hanswered, hbs⟩ :=
          @SessionMemory.answered log p.memory settings h.memory (request level)
        have hrest : m'.engine.rest = p.memory.engine.rest :=
          hanswered.engine ▸ rest_afterQuestion
        rw [hrun, Option.bind_eq_bind, Option.bind_some]
        exact ih ⟨h.memory.of_rest hrest hbs, hrest.trans h.rest,
          fun l hl => Option.some.inj hl ▸ hanswered.nodup,
          fun l a hl ha => ⟨_, hrequest level, hanswered.inserted a (by cases hl; exact ha)⟩⟩
      · exact ⟨p, rfl, h⟩

theorem Sound.deepStage (h : Sound settings log asks s p)
    (hasks : ∀ negotiations, asks (r.deep.negotiated negotiations)) :
    ∃ p', Ram.deepStage settings r p = some p' ∧ Sound settings log asks s p' := by
  rw [Ram.deepStage]
  split
  · obtain ⟨found, m', hrun, hspec⟩ :=
      @searchFactsDeep_spec settings r.deep p.memory log h.memory.maintained h.memory.recorded
    have hmemory := h.memory.of_rest hspec.rest hspec.recorded
    refine ⟨⟨found.or p.list, m'⟩, by rw [hrun]; rfl, ?_⟩
    cases hfound : found with
    | none => exact ⟨hmemory, hspec.rest.trans h.rest, h.nodup, h.inserted⟩
    | some list =>
        have hbyRule := hspec.byRule list hfound
        obtain ⟨link, e, n, before, -, -, -, -, hrelated⟩ := hbyRule.rule
        refine ⟨hmemory, hspec.rest.trans h.rest, fun l hl => Option.some.inj hl ▸ hbyRule.nodup,
          fun l a hl ha => ⟨_, hasks (n :: before), ?_⟩⟩
        obtain ⟨w, hsearches, ha⟩ := hrelated a (by cases hl; exact ha)
        exact h.memory.insertedFor hsearches ha
  · exact ⟨p, rfl, h⟩

/-! ## All searches -/

/-- The thesaurus search of the round found a fact without a verb. -/
structure FailsAt (settings : Settings) (s : Engine) (r : Round) (m : Memory) : Prop where
  rest : m.engine.rest = s.rest
  wanted : r.wantsThesaurus = true
  verbless : allHaveVerbs m.engine (thesaurusList settings r.thesaurus m) = false

/-- A round ends with a sound list, or at a fact without a verb. -/
theorem searchFactsByWeakness_spec (h : SessionMemory m log) (hrest : m.engine.rest = s.rest)
    (hasks : ∀ q, r.Asks q → asks q) :
    (∃ p, searchFactsByWeakness settings r m = some p ∧ Sound settings log asks s p) ∨
      searchFactsByWeakness settings r m = none ∧ ∃ m', FailsAt settings s r m' := by
  have hbegin : Sound settings log asks s ⟨none, m⟩ :=
    ⟨h, hrest, fun l hl => (by cases hl), fun l a hl => (by cases hl)⟩
  have hdouble : Sound settings log asks s (doubleFactsStage settings r ⟨none, m⟩) := by
    rw [doubleFactsStage]
    split
    · exact hbegin.found (hasks _ .doubleFacts)
        (searchAndFilterBy_sublist settings r.doubleFacts _ m.engine [] m.bindings) rfl
        ((searchAndFilterBy_records settings r.doubleFacts _ m.engine []).forall h.recorded)
    · exact hbegin
  obtain ⟨p₁, hsimple, h₁⟩ : ∃ p, simpleStage settings r (doubleFactsStage settings r ⟨none, m⟩) =
      some p ∧ Sound settings log asks s p := by
    rw [simpleStage]
    split
    · exact hdouble.simpleLevels (fun level => hasks _ (.simple level)) _
    · exact ⟨_, rfl, hdouble⟩
  obtain ⟨p₂, hgeneral, h₂⟩ : ∃ p, generalStage settings r p₁ = some p ∧
      Sound settings log asks s p := by
    rw [generalStage]
    split
    · exact h₁.simpleLevels (fun level => hasks _ (.general level)) _
    · exact ⟨_, rfl, h₁⟩
  obtain ⟨p₃, hdeep, h₃⟩ := h₂.deepStage fun negotiations => hasks _ (.deep negotiations)
  have hrun : searchFactsByWeakness settings r m = thesaurusStage settings r p₃ := by
    simp only [searchFactsByWeakness, hsimple, hgeneral, hdeep, Option.bind_eq_bind,
      Option.bind_some]
  have hlast := h₃.thesaurus (hasks _ .thesaurus)
  rw [hrun, thesaurusStage]
  cases hverbs : allHaveVerbs p₃.memory.engine (thesaurusList settings r.thesaurus p₃.memory) with
  | true =>
      rw [if_pos hverbs] at hlast
      obtain ⟨found, hfound, hsound⟩ := hlast
      refine Or.inl ?_
      split
      · exact ⟨_, by rw [hfound]; rfl, hsound⟩
      · exact ⟨p₃, rfl, h₃⟩
  | false =>
      rw [if_neg (by simp [hverbs])] at hlast
      split
      · case isTrue hwanted =>
          rw [Bool.and_eq_true] at hwanted
          exact Or.inr ⟨by rw [hlast]; rfl, p₃.memory, h₃.rest, hwanted.2, hverbs⟩
      · exact Or.inl ⟨p₃, rfl, h₃⟩

def roundWhy : Round where
  context := "default".toList
  verbs := "schlaeft".toList
  matchVariables := false
  doubleFacts := askCat "schlaeft"
  simple := fun _ => askCat "schlaeft"
  general := fun _ => askCat ""
  deep := askWhy
  thesaurus := askCat "schlaeft"

end Freehal.Ram
