import Freehal.Ram.Answers

/-!
# The deep search

`search_facts_deep` of `hal2012-universal.c`: a fact that matches the question and has a conditional
clause is a rule, and the facts that its clause asks for are the answers. How the request for a
clause is negotiated is a parameter.
-/

namespace Freehal.Ram

open Universal (Word Config Bindings Binding Matcher strstr isAVariable isAFactVerb isAEqualVerb
  isConditionalQuestionword)
open Disk (divideWords)

/-- What `negotiate_deep_search` is called with, besides the question. -/
structure Negotiation where
  ifClause : Fact
  thenClause : Fact
  level : Nat

/-- A question, with the request for the last of some negotiations. A request may depend on those
before it, since words are deleted from the synonyms that all requests share. -/
structure DeepQuestion where
  linking : Question
  negotiated : List Negotiation → Question

/-- While rules are searched for, `config_match_variables` is 1. -/
def Settings.matching (settings : Settings) : Config := ⟨true, settings.lang⟩

/-- The memory, the negotiations so far with the last one first, and the list that was found last. -/
structure DeepState where
  memory : Memory
  negotiations : List Negotiation
  list : Option (List Pointer)

section

variable (settings : Settings) (q : DeepQuestion)

/-! ## The answers of one clause -/

/-- The loop over `_level`. The list of the last search is kept, found or not. -/
def searchLevels (ifClause thenClause : Fact) :
    List Nat → List Pointer → List Negotiation → Memory → List Pointer × List Negotiation × Memory
  | [], list, done, m => (list, done, m)
  | level :: levels, _, done, m =>
      let done := ⟨ifClause, thenClause, level⟩ :: done
      let found := (searchAndFilter settings (q.negotiated done) m.engine []).run m.bindings
      if found.1.filterMap id = [] then
        searchLevels ifClause thenClause levels found.1 done ⟨m.engine, found.2⟩
      else (found.1, done, ⟨m.engine, found.2⟩)

def startsWithAVariable (words : List Word) : Bool := words.head?.any fun word => isAVariable word.name

/-- The subjects that the objects of an answer are compared with. -/
def DeepQuestion.aboutSubjects (q : DeepQuestion) : Question :=
  { q.linking with subjectSynonymsLevel0 := q.linking.subjects }

/-- No thesaurus, ps- and fa-facts. -/
def comesFromThesaurus (fact : Fact) : Matcher Bool :=
  pure (strstr fact.filename "thes".toList)
    <||> (pure (strstr fact.filename "ps-".toList) <&&> isAboutSubjects settings q.aboutSubjects fact)
    <||> (pure (strstr fact.filename "fa-".toList) <&&> isAboutSubjects settings q.aboutSubjects fact)

/-- The first part of the loop over the answers. -/
def reviewDeep (fact : Fact) : Matcher (Option Fact) :=
  if startsWithAVariable fact.subjects || startsWithAVariable fact.objects then pure none
  else
    match fact.verbs with
    | [] => pure (some fact)
    | verb :: _ =>
        if isAFactVerb verb.name then do
          if ← comesFromThesaurus settings q fact then pure none
          else if isAEqualVerb verb.name then
            pure (some { fact with verbs := divideWords "equal".toList })
          else pure (some fact)
        else pure (some fact)

/-! ## The rules -/

/-- One clause of a rule, and whether answers were found. -/
def tryClause (link clause : Nat) (st : DeepState) : Option (DeepState × Bool) := do
  let ifClause ← st.memory.engine.facts[clause]?
  if isConditionalQuestionword ifClause.questionword then
    let thenClause ← st.memory.engine.facts[link]?
    let found := searchLevels settings q ifClause thenClause [1, 2, 3] [] st.negotiations st.memory
    let answers ← reviewListBy (reviewDeep settings q) found.1 found.2.2
    return (⟨answers.2, found.2.1, some answers.1⟩, decide (answers.1.filterMap id ≠ []))
  else return (st, false)

/-- The loop over `c`. -/
def tryClauses (link : Nat) : List Nat → DeepState → Option (DeepState × Bool)
  | [], st => some (st, false)
  | clause :: clauses, st => do
      let tried ← tryClause settings q link clause st
      if tried.2 then return tried else tryClauses link clauses tried.1

end

/-- The clauses of a fact, as the loop goes over them. -/
def clausesOf (s : Engine) (fact : Nat) : Option (List Nat) := do
  let f ← s.facts[fact]?
  match ← ramSearchClauses f.pk s with
  | none => return []
  | some clauses => return validPrefix (clauses.cells.map Option.join)

section

variable (settings : Settings) (q : DeepQuestion)

/-- The loop over the linking facts, up to the first rule that has answers. -/
def tryLinks : List Pointer → DeepState → Option DeepState
  | [], st => some st
  | none :: links, st => tryLinks links st
  | some link :: links, st => do
      let clauses ← clausesOf st.memory.engine link
      let tried ← tryClauses settings q link clauses st
      if tried.2 then return tried.1 else tryLinks links tried.1

/-- The facts that match the question, among which rules are searched for. -/
def linkingList (m : Memory) : List Pointer × Bindings :=
  (searchAndFilterBy settings q.linking settings.matching m.engine []).run m.bindings

/-- The list that is returned is a null pointer when there is no rule. -/
def searchFactsDeep (m : Memory) : Option (Option (List Pointer) × Memory) := do
  let links := linkingList settings q m
  let st ← tryLinks settings q links.1 ⟨⟨m.engine, links.2⟩, [], none⟩
  return (st.list, st.memory)

end

variable {settings : Settings} {q : DeepQuestion} {s : Engine} {f : Fact} {m m' : Memory}
  {log : Log} {st st' : DeepState} {link clause a : Nat}

/-! ## The review of one fact -/

section

variable (settings : Settings) (q : DeepQuestion)

def isFromThesaurus (f : Fact) : Bool :=
  (f.verbs.head?.any fun verb => isAFactVerb verb.name) && ((comesFromThesaurus settings q f).run []).1

/-- What the review makes of a fact. -/
def deepResult (f : Fact) : Option Fact :=
  if startsWithAVariable f.subjects || startsWithAVariable f.objects || isFromThesaurus settings q f
  then none
  else if f.verbs.head?.any fun verb => isAEqualVerb verb.name then some f.withEqual
  else some f

end

theorem comesFromThesaurus_related :
    Lib.Related Eq (comesFromThesaurus settings q f) (comesFromThesaurus settings q f) := by
  have const : ∀ b : Bool, Lib.Relaxes (σ := Bindings) (pure b) (pure b) :=
    fun b => Lib.Related.pure id
  have about : ∀ b : Bool, Lib.Relaxes (pure b <&&> isAboutSubjects settings q.aboutSubjects f)
      (pure b <&&> isAboutSubjects settings q.aboutSubjects f) :=
    fun b => (const b).and isAboutSubjects_relaxes
  exact Lib.Relaxes.eq ((const _).or ((about _).or (about _)))

theorem comesFromThesaurus_records :
    Lib.Adds Binding.Recorded (comesFromThesaurus settings q f) := by
  have about : Lib.Adds Binding.Recorded (isAboutSubjects settings q.aboutSubjects f) :=
    isAboutSubjects_records
  exact (Lib.Adds.pure _).or (((Lib.Adds.pure _).and about).or ((Lib.Adds.pure _).and about))

theorem reviewDeep_records : Lib.Adds Binding.Recorded (reviewDeep settings q f) := by
  unfold reviewDeep
  split
  · exact Lib.Adds.pure _
  split
  · exact Lib.Adds.pure _
  split
  · refine comesFromThesaurus_records.bind fun other => ?_
    split
    · exact Lib.Adds.pure _
    split
    · exact Lib.Adds.pure _
    · exact Lib.Adds.pure _
  · exact Lib.Adds.pure _

theorem reviewDeep_eq (bs : Bindings) :
    ((reviewDeep settings q f).run bs).1 = deepResult settings q f := by
  by_cases hvariable : (startsWithAVariable f.subjects || startsWithAVariable f.objects) = true
  · rw [reviewDeep, if_pos hvariable, deepResult, hvariable]
    rfl
  rw [reviewDeep, if_neg hvariable, deepResult, (Bool.not_eq_true _).mp hvariable, Bool.false_or]
  cases hverbs : f.verbs with
  | nil => simp [isFromThesaurus, hverbs]; rfl
  | cons verb rest =>
      by_cases hfact : isAFactVerb verb.name = true
      · have hfile : isFromThesaurus settings q f =
            ((comesFromThesaurus settings q f).run bs).1 := by
          rw [isFromThesaurus, hverbs, List.head?_cons, Option.any_some, hfact, Bool.true_and]
          exact comesFromThesaurus_related [] bs
        have hif : ∀ (other : Bool) (state : Bindings),
            (StateT.run (if other = true then pure none
              else if isAEqualVerb verb.name = true then pure (some f.withEqual)
              else pure (some f) : Matcher (Option Fact)) state).1 =
            if other = true then none
            else if isAEqualVerb verb.name = true then some f.withEqual
            else some f := by
          intro other state
          split
          · rfl
          split
          · rfl
          · rfl
        simp only [if_pos hfact, StateT.run_bind, hfile, List.head?_cons, Option.any_some]
        exact hif _ _
      · have hequal : isAEqualVerb verb.name = false := by
          by_contra h
          exact hfact (isAFactVerb_of_isAEqualVerb ((Bool.not_eq_false _).mp h))
        simp [isFromThesaurus, hverbs, hfact, hequal]
        rfl

theorem decides_reviewDeep (settings : Settings) (q : DeepQuestion) :
    Decides (reviewDeep settings q) (deepResult settings q) where
  run f bs := reviewDeep_eq bs
  rest f g h := by
    rw [deepResult] at h
    split at h
    · cases h
    split at h
    · rw [← Option.some.inj h]
      rfl
    · rw [← Option.some.inj h]
  records f := reviewDeep_records

theorem not_startsWithAVariable (h : (deepResult settings q f).isSome = true) :
    startsWithAVariable f.subjects = false ∧ startsWithAVariable f.objects = false := by
  rw [deepResult] at h
  split at h
  · cases h
  · case isFalse hnot =>
      simp only [Bool.or_eq_true, not_or, Bool.not_eq_true] at hnot
      exact hnot.1

theorem lists_settled_deepResult (f : Fact) : (settled (deepResult settings q) f).lists = f.lists := by
  rw [settled, deepResult]
  split
  · rfl
  split
  · rfl
  · rfl

/-! ## One request -/

/-- The search for the last level that was tried. -/
theorem searchLevels_spec (ifClause thenClause : Fact) (levels : List Nat) (hlevels : levels ≠ [])
    (list : List Pointer) (done : List Negotiation) (hbs : ∀ b ∈ m.bindings, b.Recorded) :
    ∃ level before bs bs', (∀ b ∈ bs', b.Recorded) ∧
      searchLevels settings q ifClause thenClause levels list done m =
        (((searchAndFilter settings (q.negotiated (⟨ifClause, thenClause, level⟩ :: before))
          m.engine []).run bs).1, ⟨ifClause, thenClause, level⟩ :: before, ⟨m.engine, bs'⟩) := by
  induction levels generalizing list done m with
  | nil => exact absurd rfl hlevels
  | cons level levels ih =>
      have hrecorded := (searchAndFilter_records settings
        (q.negotiated (⟨ifClause, thenClause, level⟩ :: done)) m.engine []).forall hbs
      rw [searchLevels]
      split
      · cases levels with
        | nil => exact ⟨level, done, m.bindings, _, hrecorded, rfl⟩
        | cons next levels => exact ih (List.cons_ne_nil next levels) _ _ hrecorded
      · exact ⟨level, done, m.bindings, _, hrecorded, rfl⟩

/-! ## What is known of the answers -/

/-- The answers to a deep question were found with one request, which was negotiated for a
conditional clause of a linking fact. -/
structure ByRule (settings : Settings) (q : DeepQuestion) (s : Engine) (log : Log)
    (links list : List Pointer) : Prop where
  rule : ∃ link e n before, some link ∈ links ∧ e ∈ (log.clauseEntriesAt link).take 20 ∧
    isConditionalQuestionword e.2.questionword = true ∧ n.ifClause.kept = e.2.fact.kept ∧
    ∀ a, some a ∈ list → ∃ w, (q.negotiated (n :: before)).Searches settings w ∧
      a ∈ s.relatedFacts w
  nodup : (list.filterMap id).Nodup
  length : ((list.filterMap id).length : Int) ≤ settings.limit
  answer : ∀ a, some a ∈ list → log.Unconditional a ∧ ∃ f, s.facts[a]? = some f ∧
    startsWithAVariable f.subjects = false ∧ startsWithAVariable f.objects = false

/-- What holds throughout a deep search in the store `s`. -/
structure DeepInv (settings : Settings) (q : DeepQuestion) (s : Engine) (log : Log)
    (links : List Pointer) (st : DeepState) : Prop where
  rest : st.memory.engine.rest = s.rest
  lists : ∀ a, st.memory.engine.listsAt a = s.listsAt a
  recorded : ∀ b ∈ st.memory.bindings, b.Recorded
  list : ∀ l, st.list = some l → ByRule settings q s log links l

theorem clausesOf_congr {t : Engine} (h : SameFrame s t) (fact : Nat) :
    clausesOf t fact = clausesOf s fact := by
  have hpk : ∀ x : Engine, clausesOf x fact = ((x.facts[fact]?).map Fact.frame).bind fun frame =>
      (ramSearchClauses frame.1 x).map fun found =>
        match found with
        | none => []
        | some clauses => validPrefix (clauses.cells.map Option.join) := by
    intro x
    cases hf : x.facts[fact]? with
    | none => simp [clausesOf, hf]
    | some f =>
        have hframe : f.frame.1 = f.pk := rfl
        simp only [clausesOf, hf, Option.bind_eq_bind, Option.bind_some, Option.map_some, hframe]
        cases ramSearchClauses f.pk x with
        | none => rfl
        | some found =>
            cases found with
            | none => rfl
            | some clauses => rfl
  rw [hpk, hpk, h.facts]
  simp only [h.ramSearchClauses]

theorem clausesOf_eq (h : Keeps s log) (hkeys : Keyed s) (hlink : link < s.size) :
    clausesOf s link = some ((log.clausesAt link).take 20) := by
  obtain ⟨f, hf⟩ : ∃ f, s.facts[link]? = some f :=
    ⟨_, List.getElem?_eq_getElem (by rw [h.facts]; exact hlink)⟩
  obtain ⟨found, hfound, hclauses⟩ := h.search_clauses (Int.natCast_nonneg link) (by omega)
  simp only [clausesOf, hf, hkeys link f hf, hfound, Option.bind_eq_bind, Option.bind_some]
  cases found with
  | none =>
      have hnil : (log.clausesAt link).take 20 = [] := hclauses
      rw [hnil]
      rfl
  | some b => exact congrArg some (hclauses.validPrefix_eq (List.length_take_le 20 _))

theorem nonneg_limit (settings : Settings) : 0 ≤ settings.limit := by
  rw [Settings.limit]
  split
  · omega
  · omega

/-! ## One clause -/

theorem DeepInv.updated {links kept : List Pointer} {negotiations : List Negotiation} {bs : Bindings}
    {list : Option (List Pointer)} (h : DeepInv settings q s log links st)
    (hbs : ∀ b ∈ bs, b.Recorded) (hlist : ∀ l, list = some l → ByRule settings q s log links l) :
    DeepInv settings q s log links
      ⟨⟨st.memory.engine.updateFacts kept (settled (deepResult settings q)), bs⟩, negotiations,
        list⟩ where
  rest := (rest_updateFacts (decides_reviewDeep settings q).rest_settled _ _).trans h.rest
  lists a := by
    rw [← h.lists, Engine.listsAt, facts_updateFacts, Option.map_map, Engine.listsAt]
    congr 1
    funext f
    rw [Function.comp_apply]
    split
    · exact lists_settled_deepResult f
    · rfl
  recorded := hbs
  list := hlist

/-- The answers that stay after the review of what one request found. -/
theorem DeepInv.byRule {links : List Pointer} {e : Nat × Columns} {n : Negotiation}
    {before : List Negotiation} (h : DeepInv settings q s log links st) (hs : Maintained s log)
    (hlink : some link ∈ links) (he : e ∈ (log.clauseEntriesAt link).take 20)
    (hconditional : isConditionalQuestionword e.2.questionword = true)
    (hn : n.ifClause.kept = e.2.fact.kept) (bs : Bindings) :
    ByRule settings q s log links (((searchAndFilter settings (q.negotiated (n :: before))
      st.memory.engine []).run bs).1.map (Option.filter
        (stays (deepResult settings q) st.memory.engine))) := by
  have hsub := searchAndFilter_sublist settings (q.negotiated (n :: before)) st.memory.engine [] bs
  have hcollected := collected_searchInNet settings (q.negotiated (n :: before))
    st.memory.engine []
  have hkept := (Lib.filterMap_map_filter (stays (deepResult settings q) st.memory.engine) _).symm ▸
    List.filter_sublist.trans hsub
  refine ⟨⟨link, e, n, before, hlink, he, hconditional, hn, fun a ha => ?_⟩,
    hkept.nodup hcollected.nodup, ?_, fun a ha => ?_⟩
  · obtain ⟨w, hsearches, hrelated⟩ := hcollected.related a
      (hkept.subset (List.mem_filterMap.mpr ⟨_, ha, rfl⟩))
    rw [(rest_eq_iff.mp h.rest).2.1] at hrelated
    exact ⟨w, hsearches, hrelated⟩
  · have hlength := hkept.length_le
    have hmax := hcollected.length
    have hlimit := nonneg_limit settings
    omega
  · obtain ⟨-, hstays⟩ := Lib.some_mem_map_filter.mp ha
    obtain ⟨g, hg, hboth⟩ := (Option.any_eq_true _ _).mp hstays
    rw [Bool.and_eq_true, decide_eq_true_eq] at hboth
    obtain ⟨f, hf, hrest⟩ := exists_of_rest h.rest hg
    have hlists := h.lists a
    rw [Engine.listsAt, hg, Engine.listsAt, hf] at hlists
    have hsubjects : g.subjects = f.subjects := congrArg Lists.subjects (Option.some.inj hlists)
    have hobjects : g.objects = f.objects := congrArg Lists.objects (Option.some.inj hlists)
    have hno := not_startsWithAVariable hboth.1
    have hpk : g.pk = f.pk := (congrArg Prod.fst (frame_of_rest hrest)).symm
    refine ⟨?_, f, hf, hsubjects ▸ hno.1, hobjects ▸ hno.2⟩
    rw [← hs.hasConditionalClause_iff hf, ← hpk,
      ← (sameFrame_of_rest h.rest).hasConditionalClause]
    exact hboth.2

theorem tryClause_spec {links : List Pointer} (h : DeepInv settings q s log links st)
    (hs : Maintained s log) (hlink : some link ∈ links) (hfirst : ∃ f, s.facts[link]? = some f)
    (hclause : clause ∈ (log.clausesAt link).take 20) :
    ∃ st' b, tryClause settings q link clause st = some (st', b) ∧
      DeepInv settings q s log links st' ∧
      if isConditional s clause then st'.list ≠ none else st' = st ∧ b = false := by
  have hback : s.rest = st.memory.engine.rest := h.rest.symm
  obtain ⟨thenClause₀, hthen₀⟩ := hfirst
  obtain ⟨thenClause, hthen, -⟩ := exists_of_rest hback hthen₀
  obtain ⟨e, he, rfl⟩ : ∃ e ∈ (log.clauseEntriesAt link).take 20, e.1 = clause := by
    rw [clausesAt_eq_map, ← List.map_take] at hclause
    exact List.mem_map.mp hclause
  have hlog := mem_log_of_mem_clauseEntriesAt (List.mem_of_mem_take he)
  obtain ⟨ifClause, hif, hn⟩ :=
    Option.map_eq_some_iff.mp (hs.stored.of_rest h.rest (.clause link e.2) e.1 hlog)
  have hword : ifClause.questionword = e.2.questionword :=
    congrArg (fun kept : Fact => kept.questionword) hn
  have hconditional : isConditional s e.1 = isConditionalQuestionword e.2.questionword :=
    hs.stored.isConditional hlog
  by_cases hyes : isConditionalQuestionword e.2.questionword = true
  · obtain ⟨level, before, bs, bs', hbs', hfound⟩ := @searchLevels_spec settings q st.memory ifClause
      thenClause [1, 2, 3] (by decide) [] st.negotiations h.recorded
    have hvalid := searchAndFilter_valid settings
      (q.negotiated (⟨ifClause, thenClause, level⟩ :: before)) st.memory.engine [] bs
    have hbyRule := @DeepInv.byRule settings q s log st link links e ⟨ifClause, thenClause, level⟩
      before h hs hlink he hyes hn bs
    generalize ((searchAndFilter settings (q.negotiated (⟨ifClause, thenClause, level⟩ :: before))
      st.memory.engine []).run bs).1 = kept at hfound hvalid hbyRule
    obtain ⟨bs'', hbs'', hrun⟩ := (decides_reviewDeep settings q).reviewList_eq
      (m := ⟨st.memory.engine, bs'⟩) (hs.of_rest h.rest).answerable hvalid.nodup hvalid.stored hbs'
    let answers := kept.map (Option.filter (stays (deepResult settings q) st.memory.engine))
    have htry : tryClause settings q link e.1 st =
        some (⟨⟨st.memory.engine.updateFacts kept (settled (deepResult settings q)), bs''⟩,
          ⟨ifClause, thenClause, level⟩ :: before, some answers⟩,
            decide (answers.filterMap id ≠ [])) := by
      simp only [tryClause, hif, hthen, hword, Option.bind_eq_bind, Option.bind_some, if_pos hyes,
        hfound, hrun]
      rfl
    refine ⟨_, _, htry, h.updated hbs'' fun l hl => Option.some.inj hl ▸ hbyRule, ?_⟩
    rw [hconditional, if_pos hyes]
    exact Option.some_ne_none _
  · refine ⟨st, false, ?_, h, ?_⟩
    · simp only [tryClause, hif, hword, Option.bind_eq_bind, Option.bind_some, if_neg hyes]
      rfl
    · rw [hconditional, if_neg hyes]
      exact ⟨rfl, rfl⟩

/-! ## All clauses of all rules -/

theorem tryClauses_spec {links : List Pointer} (hs : Maintained s log) (hlink : some link ∈ links)
    (hfirst : ∃ f, s.facts[link]? = some f) {rest : List Nat}
    (hrest : ∀ c ∈ rest, c ∈ (log.clausesAt link).take 20) (h : DeepInv settings q s log links st) :
    ∃ st' b, tryClauses settings q link rest st = some (st', b) ∧
      DeepInv settings q s log links st' ∧ (b = true → st'.list ≠ none) ∧
      (st'.list = none ↔ st.list = none ∧ ∀ c ∈ rest, isConditional s c = false) := by
  induction rest generalizing st with
  | nil => exact ⟨st, false, rfl, h, fun hb => Bool.noConfusion hb, by simp⟩
  | cons clause rest ih =>
      obtain ⟨st₁, b, hrun, hinv, hcases⟩ :=
        tryClause_spec h hs hlink hfirst (hrest clause List.mem_cons_self)
      have hstep : ∀ b, tryClause settings q link clause st = some (st₁, b) →
          tryClauses settings q link (clause :: rest) st =
            if b then some (st₁, b) else tryClauses settings q link rest st₁ := by
        intro b hrun
        rw [tryClauses, hrun, Option.bind_eq_bind, Option.bind_some]
        rfl
      rw [hstep b hrun]
      by_cases hconditional : isConditional s clause = true
      · rw [if_pos hconditional] at hcases
        have hnot : ∀ st' : DeepState, st'.list ≠ none → (st'.list = none ↔
            st.list = none ∧ ∀ c ∈ clause :: rest, isConditional s c = false) := by
          intro st' hlist
          refine iff_of_false hlist fun hall => ?_
          rw [hall.2 clause List.mem_cons_self] at hconditional
          cases hconditional
        by_cases hb : b = true
        · rw [if_pos hb]
          exact ⟨st₁, b, rfl, hinv, fun _ => hcases, hnot st₁ hcases⟩
        · rw [if_neg hb]
          obtain ⟨st', b', hrun', hinv', hb', hlist⟩ :=
            ih (fun c hc => hrest c (List.mem_cons_of_mem _ hc)) hinv
          exact ⟨st', b', hrun', hinv', hb', hnot st' fun hnone => hcases (hlist.mp hnone).1⟩
      · rw [if_neg hconditional] at hcases
        obtain ⟨rfl, rfl⟩ := hcases
        rw [if_neg (by decide)]
        obtain ⟨st', b', hrun', hinv', hb', hlist⟩ :=
          ih (fun c hc => hrest c (List.mem_cons_of_mem _ hc)) hinv
        refine ⟨st', b', hrun', hinv', hb', hlist.trans ?_⟩
        rw [List.forall_mem_cons, (Bool.not_eq_true _).mp hconditional]
        simp

theorem tryLinks_spec {links rest : List Pointer} (hs : Maintained s log)
    (hstored : ∀ a, some a ∈ links → ∃ f, s.facts[a]? = some f) (hrest : ∀ p ∈ rest, p ∈ links)
    (h : DeepInv settings q s log links st) :
    ∃ st', tryLinks settings q rest st = some st' ∧ DeepInv settings q s log links st' ∧
      (st'.list = none ↔
        st.list = none ∧ ∀ link : Nat, some link ∈ rest → log.Unconditional link) := by
  induction rest generalizing st with
  | nil => exact ⟨st, rfl, h, by simp⟩
  | cons p rest ih =>
      have hin : ∀ p ∈ rest, p ∈ links := fun p hp => hrest p (List.mem_cons_of_mem _ hp)
      cases p with
      | none =>
          obtain ⟨st', hrun, hinv, hlist⟩ := ih hin h
          exact ⟨st', hrun, hinv, hlist.trans (by simp)⟩
      | some link =>
          have hlink := hrest (some link) List.mem_cons_self
          obtain ⟨f, hf⟩ := hstored link hlink
          have hlt : link < s.size := by
            rw [← hs.keeps.facts]
            exact (List.getElem?_eq_some_iff.mp hf).1
          obtain ⟨st₁, b, hrun, hinv, hb, hlist⟩ := tryClauses_spec hs hlink ⟨f, hf⟩
            (fun c hc => hc) h
          rw [← hs.stored.unconditional_iff] at hlist
          have hstep : tryLinks settings q (some link :: rest) st =
              if b then some st₁ else tryLinks settings q rest st₁ := by
            rw [tryLinks, clausesOf_congr (sameFrame_of_rest h.rest),
              clausesOf_eq hs.keeps hs.keyed hlt, Option.bind_eq_bind, Option.bind_some, hrun]
            rfl
          have hrules : (∀ l : Nat, some l ∈ some link :: rest → log.Unconditional l) ↔
              log.Unconditional link ∧ ∀ l : Nat, some l ∈ rest → log.Unconditional l := by
            simp
          rw [hstep, hrules]
          by_cases hyes : b = true
          · rw [if_pos hyes]
            refine ⟨st₁, rfl, hinv, iff_of_false (hb hyes) fun hall => hb hyes ?_⟩
            exact hlist.mpr ⟨hall.1, hall.2.1⟩
          · rw [if_neg hyes]
            obtain ⟨st', hrun', hinv', hlist'⟩ := ih hin hinv
            refine ⟨st', hrun', hinv', hlist'.trans ?_⟩
            rw [hlist, and_assoc]

/-! ## The whole search -/

/-- What a deep search does. -/
structure DeepAnswered (settings : Settings) (q : DeepQuestion) (m : Memory) (log : Log)
    (found : Option (List Pointer)) (m' : Memory) : Prop where
  rest : m'.engine.rest = m.engine.rest
  lists : ∀ a, m'.engine.listsAt a = m.engine.listsAt a
  recorded : ∀ b ∈ m'.bindings, b.Recorded
  noRule : found = none ↔
    ∀ link : Nat, some link ∈ (linkingList settings q m).1 → log.Unconditional link
  byRule : ∀ list, found = some list →
    ByRule settings q m.engine log (linkingList settings q m).1 list

theorem searchFactsDeep_spec (hs : Maintained m.engine log) (hbs : ∀ b ∈ m.bindings, b.Recorded) :
    ∃ found m', searchFactsDeep settings q m = some (found, m') ∧
      DeepAnswered settings q m log found m' := by
  have hvalid : Valid m.engine (linkingList settings q m).1 :=
    searchAndFilterBy_valid settings q.linking settings.matching m.engine [] m.bindings
  have hrecorded : ∀ b ∈ (linkingList settings q m).2, b.Recorded :=
    (searchAndFilterBy_records settings q.linking settings.matching m.engine []).forall hbs
  have hbegin : DeepInv settings q m.engine log (linkingList settings q m).1
      ⟨⟨m.engine, (linkingList settings q m).2⟩, [], none⟩ :=
    ⟨rfl, fun _ => rfl, hrecorded, fun l hl => by cases hl⟩
  obtain ⟨st, hrun, hinv, hlist⟩ := tryLinks_spec hs hvalid.stored (fun p hp => hp) hbegin
  refine ⟨st.list, st.memory, ?_, hinv.rest, hinv.lists, hinv.recorded, ?_, hinv.list⟩
  · rw [searchFactsDeep, hrun]
    rfl
  · simpa using hlist

end Freehal.Ram
