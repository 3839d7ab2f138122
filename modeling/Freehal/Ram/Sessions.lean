import Freehal.Lib.Silent
import Freehal.Ram.Deep

/-!
# Sessions

Insertions and questions in any order. A question changes words of the stored facts only, and no
insertion reads them: the store grows as it would without the questions.
-/

namespace Freehal.Ram

open Universal (Bindings isAEqualVerb)
open Lib (Matched replies)

variable {s t s' : Engine} {a : Nat} {f : Fact} {log : Log}

/-! ## What insertions read -/

/-- The result of an insertion without these words. -/
def restOf (r : Engine × Pointer) : Engine × Pointer := (r.1.rest, r.2)

theorem rest_modifyFact {set : Fact → Fact} (h : ∀ f, (set f).rest = set f.rest) (a : Nat) :
    (s.modifyFact a set).rest = s.rest.modifyFact a set := by
  have hfacts : (s.facts.modify a set).map Fact.rest = (s.facts.map Fact.rest).modify a set := by
    apply List.ext_getElem?
    intro b
    rw [List.getElem?_map, List.getElem?_modify, List.getElem?_modify, List.getElem?_map]
    cases s.facts[b]? with
    | none => rfl
    | some f =>
        by_cases hab : a = b
        · simp [hab, h]
        · simp [hab]
  rw [Engine.modifyFact, Engine.rest, hfacts]
  rfl

theorem length_rest (s : Engine) : s.rest.facts.length = s.facts.length := List.length_map ..

theorem insertRamFactByKey_rest (fact : Nat) (s : Engine) :
    insertRamFactByKey fact s.rest = (insertRamFactByKey fact s).map Engine.rest := by
  have hset : ∀ f : Fact, ({ f with pk := s.size, rel := 0 } : Fact).rest =
      { f.rest with pk := s.size, rel := 0 } := fun f => rfl
  have hfacts := congrArg Engine.facts (@rest_modifyFact s _ hset fact)
  simp only [insertRamFactByKey, Option.bind_eq_bind, Option.map_bind, Function.comp_def]
  refine Option.bind_congr fun list _ => ?_
  exact congrArg (fun facts => some (⟨facts, s.relatedFacts, s.size + 1, _, list⟩ : Engine))
    hfacts.symm

theorem factAt_rest (rel : Int) (s : Engine) :
    s.rest.factAt rel = (s.factAt rel).map fun found => (found.1, found.2.rest) := by
  have hget : ∀ address : Nat, s.rest.facts[address]? = (s.facts[address]?).map Fact.rest :=
    fun address => List.getElem?_map
  simp only [Engine.factAt, Option.bind_eq_bind, Option.map_bind, Function.comp_def, hget,
    Option.bind_map]
  rfl

theorem insertFactAtKey_rest (rel : Int) (fact : Nat) (s : Engine) :
    insertFactAtKey rel fact s.rest = (insertFactAtKey rel fact s).map Engine.rest := by
  have hrel : ∀ f : Fact, ({ f with rel := rel } : Fact).rest = { f.rest with rel := rel } :=
    fun f => rfl
  have hclauses : ∀ (clauses : Lib.Block Pointer) (f : Fact),
      ({ f with clauses := some clauses } : Fact).rest = { f.rest with clauses := some clauses } :=
    fun clauses f => rfl
  simp only [insertFactAtKey, factAt_rest, Option.bind_eq_bind, Option.map_bind, Option.bind_map,
    Function.comp_def]
  refine Option.bind_congr fun found _ => Option.bind_congr fun pos _ =>
    Option.bind_congr fun clauses _ => ?_
  rw [Option.pure_def, Option.map_some, rest_modifyFact (hclauses clauses), rest_modifyFact hrel]

theorem insertFactByListIntoRamNet_rest (list : List Universal.Word) (fact : Nat) (s : Engine) :
    insertFactByListIntoRamNet list fact s.rest = (insertFactByListIntoRamNet list fact s).rest :=
  rfl

/-- The store with a fresh fact behind the others. -/
theorem rest_append (s : Engine) (f : Fact) :
    Engine.rest { s with facts := s.facts ++ [f] } =
      { s.rest with facts := s.rest.facts ++ [f.rest] } := by
  rw [Engine.rest, List.map_append]
  rfl

/-- An insertion does the same in two stores that differ in these words only. -/
theorem insert_rest (i : Insertion) (h : s.rest = t.rest) :
    (i.insert s).map restOf = (i.insert t).map restOf := by
  have hlength : s.facts.length = t.facts.length := by
    rw [← length_rest s, ← length_rest t, h]
  have hfresh : ∀ f : Fact, Engine.rest { s with facts := s.facts ++ [f] } =
      Engine.rest { t with facts := t.facts ++ [f] } := by
    intro f
    rw [rest_append, rest_append, h]
  have hkey : ∀ {u v : Engine} (fact : Nat), u.rest = v.rest →
      (insertRamFactByKey fact u).map Engine.rest =
        (insertRamFactByKey fact v).map Engine.rest := by
    intro u v fact huv
    rw [← insertRamFactByKey_rest, ← insertRamFactByKey_rest, huv]
  have hdone : ∀ {x y : Option Engine} (p : Pointer), x.map Engine.rest = y.map Engine.rest →
      (x.map fun s => (s, p)).map restOf = (y.map fun s => (s, p)).map restOf := by
    intro x y p hxy
    have hcomp : restOf ∘ (fun s => (s, p)) = (fun s => (s, p)) ∘ Engine.rest := rfl
    rw [Option.map_map, Option.map_map, hcomp, ← Option.map_map, ← Option.map_map, hxy]
  cases i with
  | fact c onlyLogic =>
      simp only [Insertion.insert, ramAddFact, bind_pure_comp, Option.map_eq_map]
      split
      · rw [Option.map_some, Option.map_some, restOf, restOf, h]
      · rw [hlength]
        apply hdone
        apply hkey
        simp only [← insertFactByListIntoRamNet_rest]
        rw [hfresh]
  | clause rel c =>
      simp only [Insertion.insert, ramAddClause, bind_pure_comp, Option.map_eq_map]
      split
      · rw [Option.map_some, Option.map_some, restOf, restOf, h]
      · have hboth := hkey t.facts.length (hfresh c.fact)
        have hclause : ∀ x : Option Engine,
            (x.bind (insertFactAtKey rel t.facts.length)).map Engine.rest =
              (x.map Engine.rest).bind (insertFactAtKey rel t.facts.length) := by
          intro x
          rw [Option.map_bind, Option.bind_map]
          exact Option.bind_congr fun u _ => (insertFactAtKey_rest rel t.facts.length u).symm
        have hpair : ∀ x : Option Engine,
            x.bind (fun u => (insertFactAtKey rel t.facts.length u).map
              fun u => (u, some t.facts.length)) =
                (x.bind (insertFactAtKey rel t.facts.length)).map
                  fun u => (u, some t.facts.length) := by
          intro x
          rw [Option.map_bind]
          rfl
        rw [hlength, Option.bind_eq_bind, hpair, hpair]
        apply hdone
        rw [hclause, hclause, hboth]

/-! ## Sessions -/

inductive Search where
  | simple (q : Question)
  | deep (q : DeepQuestion)

/-- The list that a search returns, or a null pointer. -/
def Search.run (settings : Settings) : Search → Memory → Option (Option (List Pointer) × Memory)
  | .simple q, m => (searchFactsSimple settings q m).map fun r => (some r.1, r.2)
  | .deep q, m => searchFactsDeep settings q m

inductive Action where
  | insert (i : Insertion)
  | ask (search : Search)

inductive Reply where
  | inserted (i : Insertion) (p : Pointer)
  | answers (found : Option (List Pointer))

/-- One action, with what it returns. -/
def act (settings : Settings) (m : Memory) : Action → Option (Memory × Reply)
  | .insert i => (i.insert m.engine).map fun r => (⟨r.1, m.bindings⟩, .inserted i r.2)
  | .ask search => (search.run settings m).map fun r => (r.2, .answers r.1)

/-- The actions on an empty engine, with what each returns. -/
def session (settings : Settings) (actions : List Action) : Option (Memory × List Reply) :=
  replies (act settings) ⟨ramBegin, []⟩ actions

def Action.insertion : Action → Option Insertion
  | .insert i => some i
  | .ask _ => none

def Reply.inserted? : Reply → Option (Insertion × Pointer)
  | .inserted i p => some (i, p)
  | .answers _ => none

/-- An insertion alone. -/
def insertAlone (s : Engine) (i : Insertion) : Option (Engine × (Insertion × Pointer)) :=
  (i.insert s).map fun r => (r.1, (i, r.2))

theorem replies_insertAlone (s : Engine) (is : List Insertion) :
    replies insertAlone s is = runFrom s is := by
  induction is generalizing s with
  | nil => rfl
  | cons i is ih =>
      simp only [replies, insertAlone, Ram.runFrom, Option.bind_eq_bind, Option.bind_map,
        Function.comp_def, ih]

/-- The memory of a session, and the engine of its insertions alone. -/
structure Stores (m : Memory) (s : Engine) : Prop where
  rest : m.engine.rest = s.rest
  recorded : ∀ b ∈ m.bindings, b.Recorded
  maintained : ∃ log, Maintained s log

/-- A search ends, and changes words of facts only. -/
theorem Search.run_spec (settings : Settings) (search : Search) (hs : Maintained m.engine log)
    (hbs : ∀ b ∈ m.bindings, b.Recorded) :
    ∃ found m', search.run settings m = some (found, m') ∧ m'.engine.rest = m.engine.rest ∧
      ∀ b ∈ m'.bindings, b.Recorded := by
  cases search with
  | simple q =>
      obtain ⟨bs, hbs', hrun⟩ := @searchFactsSimple_run settings q m hs.answerable hbs
      exact ⟨_, _, by rw [Search.run, hrun, Option.map_some], rest_afterQuestion, hbs'⟩
  | deep q =>
      obtain ⟨found, m', hrun, hspec⟩ := @searchFactsDeep_spec settings q m log hs hbs
      exact ⟨found, m', hrun, hspec.rest, hspec.recorded⟩

theorem matched_session (settings : Settings) :
    Matched (act settings) insertAlone Action.insertion Reply.inserted? Stores where
  silent m s action h hseen := by
    cases action with
    | insert i => cases hseen
    | ask search =>
        obtain ⟨log, hs⟩ := h.maintained
        obtain ⟨found, m', hrun, hrest, hbs⟩ :=
          search.run_spec settings (hs.of_rest h.rest) h.recorded
        refine ⟨m', .answers found, ?_, rfl, hrest.trans h.rest, hbs, log, hs⟩
        rw [act, hrun, Option.map_some]
  seen m s action j h hseen := by
    cases action with
    | ask q => cases hseen
    | insert i =>
        obtain rfl : i = j := Option.some.inj hseen
        have hboth := insert_rest i h.rest
        rw [act, insertAlone]
        cases hm : i.insert m.engine with
        | none =>
            rw [hm, Option.map_none] at hboth
            rw [Option.map_eq_none_iff.mp hboth.symm]
            exact Option.Rel.none
        | some r =>
            rw [hm, Option.map_some] at hboth
            obtain ⟨⟨s', p⟩, hs, heq⟩ := Option.map_eq_some_iff.mp hboth.symm
            obtain ⟨hrest, hp⟩ := Prod.mk.inj heq
            obtain ⟨log, hmaintained⟩ := h.maintained
            rw [hs]
            exact Option.Rel.some ⟨⟨hrest.symm, h.recorded, _, hmaintained.insert hs⟩,
              congrArg (fun p => some (i, p)) hp.symm⟩

/-! ## The store of a session -/

section

variable {cfg : Universal.Config} {group : Nat → List Universal.Word} {limit : Int}

theorem searchGroup_congr (h : t.relatedFacts = s.relatedFacts) (facts : List Nat)
    (words : List Universal.Word) :
    searchGroup cfg t limit facts words = searchGroup cfg s limit facts words := by
  induction words generalizing facts with
  | nil => rfl
  | cons word words ih => simp only [searchGroup, h, ih]

theorem searchGroups_congr (h : t.relatedFacts = s.relatedFacts) (facts done words : List Nat) :
    searchGroups cfg t group limit facts done words =
      searchGroups cfg s group limit facts done words := by
  induction words generalizing facts done with
  | nil => rfl
  | cons pointer pointers ih => simp only [searchGroups, searchGroup_congr h, ih]

end

/-- A session that has a result, against its insertions alone. -/
theorem stores_session {actions : List Action} {rs : List Reply}
    (h : session settings actions = some (m, rs)) :
    ∃ s, runInsertions (actions.filterMap Action.insertion) =
        some (s, rs.filterMap Reply.inserted?) ∧ Stores m s := by
  have hbegin : Stores ⟨ramBegin, []⟩ ramBegin := ⟨rfl, by simp, [], maintained_ramBegin⟩
  have hrun : Option.Rel _ (replies (act settings) ⟨ramBegin, []⟩ actions) _ :=
    (matched_session settings).run hbegin
  rw [session] at h
  rw [replies_insertAlone, h] at hrun
  cases hs : runFrom ramBegin (actions.filterMap Action.insertion) with
  | none =>
      rw [hs] at hrun
      cases hrun
  | some r =>
      obtain ⟨s, log⟩ := r
      rw [hs] at hrun
      obtain ⟨hstores, hlog⟩ := Lib.rel_some_some.mp hrun
      obtain rfl : rs.filterMap Reply.inserted? = log := hlog
      exact ⟨s, hs, hstores⟩

theorem isSome_session (settings : Settings) (actions : List Action) :
    (session settings actions).isSome =
      (runInsertions (actions.filterMap Action.insertion)).isSome := by
  have hbegin : Stores ⟨ramBegin, []⟩ ramBegin := ⟨rfl, by simp, [], maintained_ramBegin⟩
  have hrun : Option.Rel _ (replies (act settings) ⟨ramBegin, []⟩ actions) _ :=
    (matched_session settings).run hbegin
  rw [replies_insertAlone] at hrun
  exact Lib.isSome_eq_of_rel hrun

/-- What a session leaves, against its insertions alone: the same but for the words of the facts. -/
structure SameStore (m : Memory) (stored : Log) (s : Engine) (log : Log) : Prop where
  log : stored = log
  rest : m.engine.rest = s.rest
  clauses : ∀ rel, ramSearchClauses rel m.engine = ramSearchClauses rel s
  net : ∀ cfg group limit words, ramSearchFactsForWordsInNet cfg m.engine group limit words =
    ramSearchFactsForWordsInNet cfg s group limit words

/-- The fact was inserted with a word that the question searches for. -/
def InsertedFor (settings : Settings) (log : Log) (q : Question) (a : Nat) : Prop :=
  ∃ c onlyLogic, (Insertion.fact c onlyLogic, some a) ∈ log ∧
    ∃ w, q.Searches settings w ∧ c.fact.lists.front.Has w

/-- What a session keeps in its memory, whatever is asked. -/
structure SessionMemory (m : Memory) (log : Log) : Prop where
  maintained : Maintained m.engine log
  recorded : ∀ b ∈ m.bindings, b.Recorded
  related : ∀ w, ∀ a ∈ m.engine.relatedFacts w, ∃ c onlyLogic,
    (Insertion.fact c onlyLogic, some a) ∈ log ∧ c.fact.lists.front.Has w

theorem SessionMemory.of_rest (h : SessionMemory m log) (hrest : m'.engine.rest = m.engine.rest)
    (hbs : ∀ b ∈ m'.bindings, b.Recorded) : SessionMemory m' log :=
  ⟨h.maintained.of_rest hrest, hbs, (rest_eq_iff.mp hrest).2.1 ▸ h.related⟩

theorem SessionMemory.insertedFor (h : SessionMemory m log) {w : Universal.Word}
    (hw : q.Searches settings w) (ha : a ∈ m.engine.relatedFacts w) :
    InsertedFor settings log q a := by
  obtain ⟨c, onlyLogic, hin, hhas⟩ := h.related w a ha
  exact ⟨c, onlyLogic, hin, w, hw, hhas⟩

theorem memory_session {actions : List Action} {rs : List Reply}
    (h : session settings actions = some (m, rs)) :
    SessionMemory m (rs.filterMap Reply.inserted?) := by
  obtain ⟨s, hrun, hstores⟩ := stores_session h
  have hindexed : Indexed s (rs.filterMap Reply.inserted?) := indexed_ramBegin.runFrom hrun
  refine ⟨(maintained_ramBegin.runFrom hrun).of_rest hstores.rest, hstores.recorded, ?_⟩
  rw [(rest_eq_iff.mp hstores.rest).2.1]
  exact fun w a ha => (hindexed.related w a).mp ha

/-- What a question does in a session with this log. -/
structure Answered (settings : Settings) (q : Question) (m : Memory) (log : Log)
    (answers : List Pointer) (m' : Memory) : Prop where
  /-- the facts that matched by the rules, but for those that the review sets to invalid -/
  kept : answers = (candidates settings q m).map (Option.filter
    (stays (simpleResult settings q) (replaced settings q m)))
  review : ∀ a f, some a ∈ candidates settings q m → (replaced settings q m).facts[a]? = some f →
    (stays (simpleResult settings q) (replaced settings q m) a = true ↔
      isRefused settings q f = false ∧ log.Unconditional a)
  engine : m'.engine = afterQuestion settings q m
  nodup : (answers.filterMap id).Nodup
  length : ((answers.filterMap id).length : Int) ≤ settings.limit
  inserted : ∀ a, some a ∈ answers → InsertedFor settings log q a

theorem stays_iff (h : Maintained m.engine log) (hf : (replaced settings q m).facts[a]? = some f) :
    stays (simpleResult settings q) (replaced settings q m) a = true ↔
      isRefused settings q f = false ∧ log.Unconditional a := by
  rw [stays, hf, Option.any_some, Bool.and_eq_true, decide_eq_true_eq,
    (h.of_rest rest_replaced).hasConditionalClause_iff hf, simpleResult]
  cases isRefused settings q f with
  | true => simp
  | false => simp

theorem SessionMemory.answered (h : SessionMemory m log) (q : Question) :
    ∃ answers m', searchFactsSimple settings q m = some (answers, m') ∧
      Answered settings q m log answers m' ∧ (∀ b ∈ m'.bindings, b.Recorded) := by
  obtain ⟨bs, hbs, hrun⟩ :=
    @searchFactsSimple_run settings q m h.maintained.answerable h.recorded
  obtain ⟨hints, hsub⟩ := @sublist_candidates settings q m
  have hkept := (Lib.filterMap_map_filter (stays (simpleResult settings q) (replaced settings q m))
    (candidates settings q m)).symm ▸ List.filter_sublist.trans hsub
  have hcollected := collected_searchInNet settings q m.engine hints
  refine ⟨_, _, hrun, ⟨rfl, fun a f _ hf => stays_iff h.maintained hf, rfl,
    hkept.nodup hcollected.nodup, ?_, fun a ha => ?_⟩, hbs⟩
  · have hlength := hkept.length_le
    have hmax := hcollected.length
    have hlimit := nonneg_limit settings
    omega
  · obtain ⟨w, hsearches, hrelated⟩ := hcollected.related a
      (hkept.subset (List.mem_filterMap.mpr ⟨_, ha, rfl⟩))
    exact h.insertedFor hsearches hrelated

/-- The cat is an animal, unless there is a condition. -/
def conditionalCat : List Action :=
  [.insert (.fact catIsAnimal false), .ask (.simple (askCat "is-a")),
    .insert (.clause 0 { columnsOf "hund" with questionword := "wenn".toList })]

/-- The answers of a deep question, in terms of the log: a linking fact has a clause with a
conditional question word among its first twenty, and each answer was inserted as a fact with a word
of a request that was negotiated for this clause. -/
structure Inferred (settings : Settings) (q : DeepQuestion) (log : Log)
    (links list : List Pointer) : Prop where
  rule : ∃ link e n before, some link ∈ links ∧ e ∈ (log.clauseEntriesAt link).take 20 ∧
    Universal.isConditionalQuestionword e.2.questionword = true ∧
    n.ifClause.kept = e.2.fact.kept ∧
    ∀ a, some a ∈ list → InsertedFor settings log (q.negotiated (n :: before)) a
  nodup : (list.filterMap id).Nodup
  length : ((list.filterMap id).length : Int) ≤ settings.limit
  unconditional : ∀ a, some a ∈ list → log.Unconditional a

/-- The cat sleeps when the dog does, and the dog does. -/
def sleepingDog : List Action :=
  [.insert (.fact catSleeps false),
    .insert (.clause 0 { catSleeps with subjects := "hund".toList, questionword := "wenn".toList }),
    .insert (.fact { catSleeps with subjects := "hund".toList } false)]

def askWhy : DeepQuestion where
  linking := askCat "schlaeft"
  negotiated := fun _ => { askCat "schlaeft" with words := fun _ => [some ⟨"hund".toList⟩] }

end Freehal.Ram
