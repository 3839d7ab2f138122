import Freehal.Ram.Reviewing

/-!
# What questions change

A question leaves the stored facts as they are exactly when nothing is replaced in those it finds.
Then its answers are the same at any later time.
-/

namespace Freehal.Ram

open Universal (Word Config Matcher Binding Bindings isAEqualVerb isATrivialWord filterListByRules)
open Disk (divideWords)
open Lib (Related Returns Adds)

variable {s : Engine} {log : Log}

/-! ## What a search keeps -/

/-- The word is behind one of the pointers, and no invalid pointer is in front of it. -/
def Question.Has (q : Question) (pointers : List GroupPointer) (w : Word) : Prop :=
  ∃ p ∈ validPrefix pointers, w ∈ validPrefix (q.words p)

inductive Question.HasWord (q : Question) (w : Word) : Prop where
  | subjects (h : q.Has q.subjects w)
  | objects (h : q.Has q.objects w)
  | adverbs (h : q.Has q.adverbs w)
  | extra (h : q.Has q.extra w)
  | verbs (h : w ∈ divideWords q.verbs)

/-- A word that the net may be searched for. -/
structure Question.Searches (settings : Settings) (q : Question) (w : Word) : Prop where
  word : q.HasWord w
  meant : isATrivialWord settings.config w.name = false

section

variable (settings : Settings) (q : Question)

theorem collected_searchInNet (s : Engine) (hints : Str) :
    Collected s settings.limit (q.Searches settings) (searchInNet settings q s hints) := by
  have hstep : ∀ facts pointers, (∀ w, q.Has pointers w → q.HasWord w) →
      Collected s settings.limit (q.Searches settings) facts →
        Collected s settings.limit (q.Searches settings)
          (searchFactsForWordsInNet settings q s pointers facts) :=
    fun facts pointers hwords h => h.searchGroups fun p hp w hw htrivial =>
      ⟨hwords w ⟨p, hp, hw⟩, htrivial⟩
  have hverbs : ∀ facts, Collected s settings.limit (q.Searches settings) facts →
      Collected s settings.limit (q.Searches settings)
        (searchFactsForVerbs settings q s facts) := by
    intro facts h
    rw [searchFactsForVerbs]
    split
    · exact h.searchGroups fun p _ w hw htrivial => ⟨.verbs hw, htrivial⟩
    · exact h
  rw [searchInNet]
  split
  · exact Collected.nil _
  · have hthree := hstep _ q.adverbs (fun w => .adverbs) (hstep _ q.objects (fun w => .objects)
      (hstep _ q.subjects (fun w => .subjects) (Collected.nil _)))
    apply hverbs
    split
    · exact hstep _ q.extra (fun w => .extra) hthree
    · exact hthree

theorem nodup_searchInNet (s : Engine) (hints : Str) : (searchInNet settings q s hints).Nodup :=
  (collected_searchInNet settings q s hints).nodup

/-- The facts behind the pointers. -/
theorem sublist_entries (s : Engine) (list : List Nat) :
    ((list.filterMap fun a => s.facts[a]?.map fun f => (a, f.toFact)).map (·.1)).Sublist list := by
  induction list with
  | nil => exact List.Sublist.refl []
  | cons a list ih =>
      cases hf : s.facts[a]? with
      | none =>
          rw [List.filterMap_cons_none (by rw [hf]; rfl)]
          exact ih.cons a
      | some f =>
          rw [List.filterMap_cons_some (b := (a, f.toFact)) (by rw [hf]; rfl)]
          exact ih.cons_cons a

/-- No fact is kept twice, and each pointer is one to a fact. -/
structure Valid (s : Engine) (list : List Pointer) : Prop where
  nodup : (list.filterMap id).Nodup
  stored : ∀ a, some a ∈ list → ∃ f, s.facts[a]? = some f

/-- What a search keeps, with any configuration of the filter. -/
def searchAndFilterBy (cfg : Config) (s : Engine) (hints : Str) : Matcher (List Pointer) :=
  (fun list => list.map fun entry => entry.map (·.1)) <$>
    filterListByRules cfg q.request q.level
      ((searchInNet settings q s hints).filterMap fun a => s.facts[a]?.map fun f => (a, f.toFact))

theorem searchAndFilterBy_sublist (cfg : Config) (s : Engine) (hints : Str) :
    Returns (fun list => (list.filterMap id).Sublist (searchInNet settings q s hints))
      (searchAndFilterBy settings q cfg s hints) := by
  refine (Universal.filterListByRules_returns q.request q.level _).bind fun kept hkept =>
    Returns.pure ?_
  have hmap : (kept.map fun entry => entry.map (·.1)).filterMap id =
      (kept.filterMap id).map (·.1) := by
    rw [List.filterMap_map, List.map_filterMap]
    rfl
  rw [hmap]
  exact (hkept.map _).trans (sublist_entries s _)

theorem searchAndFilterBy_valid (cfg : Config) (s : Engine) (hints : Str) :
    Returns (Valid s) (searchAndFilterBy settings q cfg s hints) := by
  intro bs
  refine ⟨(searchAndFilterBy_sublist settings q cfg s hints bs).nodup
    (nodup_searchInNet settings q s hints), fun a ha => ?_⟩
  have hkept := @Universal.filterListByRules_returns cfg Nat q.request q.level
    ((searchInNet settings q s hints).filterMap fun a => s.facts[a]?.map fun f => (a, f.toFact)) bs
  obtain ⟨entry, hentry, heq⟩ := List.mem_map.mp ha
  obtain ⟨⟨b, g⟩, rfl, rfl⟩ := Option.map_eq_some_iff.mp heq
  have hmem := hkept.subset (List.mem_filterMap.mpr ⟨_, hentry, rfl⟩)
  obtain ⟨c, -, hc⟩ := List.mem_filterMap.mp hmem
  obtain ⟨f, hf, hpair⟩ := Option.map_eq_some_iff.mp hc
  obtain ⟨rfl, -⟩ := Prod.mk.inj hpair
  exact ⟨f, hf⟩

theorem searchAndFilterBy_records (cfg : Config) (s : Engine) (hints : Str) :
    Adds Binding.Recorded (searchAndFilterBy settings q cfg s hints) :=
  (Universal.filterListByRules_records q.request q.level _).map _

theorem searchAndFilter_sublist (s : Engine) (hints : Str) :
    Returns (fun list => (list.filterMap id).Sublist (searchInNet settings q s hints))
      (searchAndFilter settings q s hints) :=
  searchAndFilterBy_sublist settings q settings.config s hints

theorem searchAndFilter_valid (s : Engine) (hints : Str) :
    Returns (Valid s) (searchAndFilter settings q s hints) :=
  searchAndFilterBy_valid settings q settings.config s hints

theorem searchAndFilter_records (s : Engine) (hints : Str) :
    Adds Binding.Recorded (searchAndFilter settings q s hints) :=
  searchAndFilterBy_records settings q settings.config s hints

theorem searchAndFilter_related (s : Engine) (hints : Str) :
    Related Eq (searchAndFilter settings q s hints) (searchAndFilter settings q s hints) :=
  (Universal.filterListByRules_related q.request q.level _).map _ _ fun a b hab => by rw [hab]

end

/-! ## A question -/

section

variable (settings : Settings) (q : Question) (m : Memory)

/-- What the first search keeps, and the bindings after it. -/
def firstSearch : List Pointer × Bindings :=
  (searchAndFilter settings q m.engine "no-extra".toList).run m.bindings

/-- The facts that the loop over the answers gets. -/
def candidates : List Pointer :=
  if (firstSearch settings q m).1.filterMap id = [] then
    ((searchAndFilter settings q m.engine []).run (firstSearch settings q m).2).1
  else (firstSearch settings q m).1

/-- Nothing is replaced in a fact that the question finds. -/
structure LeavesFacts : Prop where
  free : ∀ a f, some a ∈ (firstSearch settings q m).1 → m.engine.facts[a]? = some f →
    f.Free (firstSearch settings q m).2
  verbs : ∀ a f, some a ∈ candidates settings q m → m.engine.facts[a]? = some f →
    ¬Rewrites settings q f

end

variable {settings : Settings} {q : Question} {m : Memory}

theorem recorded_firstSearch (hbs : ∀ b ∈ m.bindings, b.Recorded) :
    ∀ b ∈ (firstSearch settings q m).2, b.Recorded :=
  (searchAndFilter_records settings q m.engine _).forall hbs

theorem valid_candidates : Valid m.engine (candidates settings q m) := by
  rw [candidates]
  split
  · exact searchAndFilter_valid settings q m.engine _ _
  · exact searchAndFilter_valid settings q m.engine _ _

/-- The engine after the variables are replaced. -/
def replaced (settings : Settings) (q : Question) (m : Memory) : Engine :=
  replaceVariablesInList (firstSearch settings q m).2 (firstSearch settings q m).1 m.engine

theorem replaced_of_nil (h : (firstSearch settings q m).1.filterMap id = []) :
    replaced settings q m = m.engine := by
  refine replaceVariablesInList_eq_self fun a f ha => ?_
  have hmem : a ∈ (firstSearch settings q m).1.filterMap id := List.mem_filterMap.mpr ⟨_, ha, rfl⟩
  rw [h] at hmem
  cases hmem

theorem replaced_of_free (hbs : ∀ b ∈ (firstSearch settings q m).2, b.Recorded)
    (h : ∀ a f, some a ∈ (firstSearch settings q m).1 → m.engine.facts[a]? = some f →
      f.Free (firstSearch settings q m).2) :
    replaced settings q m = m.engine :=
  replaceVariablesInList_eq_self fun a f ha hf => replaceVariablesInFact_eq_self hbs (h a f ha hf)

theorem searchFactsSimple_eq (hbs : ∀ b ∈ m.bindings, b.Recorded) :
    ∃ bs, (∀ b ∈ bs, b.Recorded) ∧ searchFactsSimple settings q m =
      reviewList settings q (candidates settings q m) ⟨replaced settings q m, bs⟩ := by
  have hbs := @recorded_firstSearch settings q m hbs
  have hdef : searchFactsSimple settings q m =
      if (firstSearch settings q m).1.filterMap id = [] then
        let more := (searchAndFilter settings q (replaced settings q m) []).run
          (firstSearch settings q m).2
        reviewList settings q more.1 ⟨replaced settings q m, more.2⟩
      else reviewList settings q (firstSearch settings q m).1
        ⟨replaced settings q m, (firstSearch settings q m).2⟩ := rfl
  rw [hdef, candidates]
  by_cases hnone : (firstSearch settings q m).1.filterMap id = []
  · rw [if_pos hnone, if_pos hnone, replaced_of_nil hnone]
    exact ⟨_, (searchAndFilter_records settings q m.engine []).forall hbs, rfl⟩
  · rw [if_neg hnone, if_neg hnone]
    exact ⟨_, hbs, rfl⟩

/-- A question leaves the facts as they are exactly when nothing is replaced in those it finds. -/
theorem searchFactsSimple_spec (h : Answerable m.engine) (hbs : ∀ b ∈ m.bindings, b.Recorded) :
    ∃ answers m', searchFactsSimple settings q m = some (answers, m') ∧
      (∀ b ∈ m'.bindings, b.Recorded) ∧ (m'.engine = m.engine ↔ LeavesFacts settings q m) := by
  have hbs₁ := @recorded_firstSearch settings q m hbs
  have hvalid : Valid m.engine (firstSearch settings q m).1 :=
    searchAndFilter_valid settings q m.engine _ m.bindings
  have hframe : SameFrame m.engine (replaced settings q m) := sameFrame_replaceVariablesInList _
  obtain ⟨bs, hbs, heq⟩ := @searchFactsSimple_eq settings q m hbs
  have hstored : ∀ a, some a ∈ candidates settings q m →
      ∃ f, (replaced settings q m).facts[a]? = some f := by
    intro a ha
    obtain ⟨f, hf⟩ := valid_candidates.stored a ha
    obtain ⟨g, hg, -⟩ := hframe.stored hf
    exact ⟨g, hg⟩
  obtain ⟨answers, m', hrun, hall⟩ := @reviewList_spec settings q (candidates settings q m)
    ⟨replaced settings q m, bs⟩ (hframe.answerable h) hstored hbs
  have hsame := hall.same
  refine ⟨answers, m', heq.trans hrun, hall.recorded, fun hengine => ?_, fun hleaves => ?_⟩
  · -- the review keeps the words, so that they were replaced by themselves
    have hfree : ∀ a f, some a ∈ (firstSearch settings q m).1 → m.engine.facts[a]? = some f →
        f.Free (firstSearch settings q m).2 := by
      intro a f ha hf
      have hlists := hall.lists a
      rw [hengine, Engine.listsAt, Engine.listsAt, replaced,
        facts_replaceVariablesInList hvalid.nodup, if_pos ha, hf] at hlists
      exact (replaceVariablesInFact_eq_self_iff hbs₁).mp (Option.some.inj hlists).symm
    simp only [replaced_of_free hbs₁ hfree] at hsame
    exact ⟨hfree, hsame.mp hengine⟩
  · simp only [replaced_of_free hbs₁ hleaves.free] at hsame
    exact hsame.mpr hleaves.verbs

/-! ## The same question again -/

theorem candidates_eq {m m' : Memory} (h : m.engine = m'.engine) :
    candidates settings q m = candidates settings q m' := by
  obtain ⟨s, bs⟩ := m
  obtain ⟨s', bs'⟩ := m'
  obtain rfl : s = s' := h
  have hfirst : (firstSearch settings q ⟨s, bs⟩).1 = (firstSearch settings q ⟨s, bs'⟩).1 :=
    searchAndFilter_related settings q s _ bs bs'
  rw [candidates, candidates, hfirst]
  split
  · exact searchAndFilter_related settings q s _ _ _
  · rfl

/-- What was recorded before does not change the answers, when the facts stay as they are. -/
theorem searchFactsSimple_outcome {m m' : Memory} (h : m.engine = m'.engine)
    (hbs : ∀ b ∈ m.bindings, b.Recorded) (hbs' : ∀ b ∈ m'.bindings, b.Recorded)
    (hm : LeavesFacts settings q m) (hm' : LeavesFacts settings q m') :
    outcome (searchFactsSimple settings q m) = outcome (searchFactsSimple settings q m') := by
  obtain ⟨bs, -, heq⟩ := @searchFactsSimple_eq settings q m hbs
  obtain ⟨bs', -, heq'⟩ := @searchFactsSimple_eq settings q m' hbs'
  rw [heq, heq', replaced_of_free (recorded_firstSearch hbs) hm.free,
    replaced_of_free (recorded_firstSearch hbs') hm'.free, candidates_eq h, h]
  exact reviewList_outcome _ _ bs bs'

/-! ## Many questions -/

section

variable (settings)

/-- The questions one after the other, each with its answers and the memory after it. -/
def askAll : List Question → Memory → Option (List (List Pointer × Memory))
  | [], _ => some []
  | q :: qs, m => do
      let asked ← searchFactsSimple settings q m
      let rest ← askAll qs asked.2
      return asked :: rest

/-- What holds of each question of the run, and the memory in which it is asked. -/
def Throughout (P : Question → Memory → Prop) : List Question → Memory → Prop
  | [], _ => True
  | q :: qs, m =>
      P q m ∧ ∀ asked, searchFactsSimple settings q m = some asked → Throughout P qs asked.2

end

/-- What is known of a question of the run, with its answers. -/
structure Asked (settings : Settings) (s : Engine) (q : Question) (asked : List Pointer × Memory) :
    Prop where
  engine : asked.2.engine = s
  memory : ∃ bs : Bindings, (∀ b ∈ bs, b.Recorded) ∧ LeavesFacts settings q ⟨s, bs⟩ ∧
    searchFactsSimple settings q ⟨s, bs⟩ = some asked

theorem Asked.answers_eq {q : Question} {r r' : List Pointer × Memory} (h : Asked settings s q r)
    (h' : Asked settings s q r') : r.1 = r'.1 := by
  obtain ⟨bs, hbs, hleaves, hrun⟩ := h.memory
  obtain ⟨bs', hbs', hleaves', hrun'⟩ := h'.memory
  have houtcome := @searchFactsSimple_outcome settings q ⟨s, bs⟩ ⟨s, bs'⟩ rfl hbs hbs' hleaves
    hleaves'
  rw [hrun, hrun'] at houtcome
  exact (Prod.mk.inj (Option.some.inj houtcome)).1

theorem askAll_spec {qs : List Question} {bs : Bindings} (h : Answerable s)
    (hbs : ∀ b ∈ bs, b.Recorded) (hqs : Throughout settings (LeavesFacts settings) qs ⟨s, bs⟩) :
    ∃ asked, askAll settings qs ⟨s, bs⟩ = some asked ∧
      List.Forall₂ (Asked settings s) qs asked := by
  induction qs generalizing bs with
  | nil => exact ⟨[], rfl, List.Forall₂.nil⟩
  | cons q qs ih =>
      obtain ⟨hleaves, hrest⟩ := hqs
      obtain ⟨answers, m, hrun, hbs', hiff⟩ := @searchFactsSimple_spec settings q ⟨s, bs⟩ h hbs
      have hengine := hiff.mpr hleaves
      obtain ⟨t, bs'⟩ := m
      obtain rfl : t = s := hengine
      obtain ⟨asked, hasked, hall⟩ := ih hbs' (hrest _ hrun)
      refine ⟨(answers, ⟨t, bs'⟩) :: asked, ?_,
        List.Forall₂.cons ⟨rfl, bs, hbs, hleaves, hrun⟩ hall⟩
      simp only [askAll, hrun, hasked, Option.bind_eq_bind, Option.bind_some, Option.pure_def]

theorem answers_eq_of_forall₂ {qs : List Question} {asked : List (List Pointer × Memory)}
    (h : List.Forall₂ (Asked settings s) qs asked) {i j : Nat} (hij : qs[i]? = qs[j]?) :
    (asked[i]?).map (·.1) = (asked[j]?).map (·.1) := by
  rcases Lib.forall₂_getElem? h i with ⟨hi, hi'⟩ | ⟨q, r, hi, hi', hr⟩
  · rcases Lib.forall₂_getElem? h j with ⟨-, hj'⟩ | ⟨q', r', hj, -, -⟩
    · rw [hi', hj']
    · rw [hi, hj] at hij
      cases hij
  · rcases Lib.forall₂_getElem? h j with ⟨hj, -⟩ | ⟨q', r', hj, hj', hr'⟩
    · rw [hi, hj] at hij
      cases hij
    · rw [hi, hj] at hij
      obtain rfl := Option.some.inj hij
      rw [hi', hj', Option.map_some, Option.map_some, hr.answers_eq hr']

/-- A question has answers, and it leaves the engine as it is exactly when nothing is replaced in
the facts it finds. In a run of such questions the engine is the same after each, and a question
that is asked again has the same answers. -/
theorem questions_leave_facts {is : List Insertion} (hrun : runInsertions is = some (s, log))
    (settings : Settings) :
    (∀ q bindings, (∀ b ∈ bindings, b.Recorded) →
      ∃ answers m, searchFactsSimple settings q ⟨s, bindings⟩ = some (answers, m) ∧
        (m.engine = s ↔ LeavesFacts settings q ⟨s, bindings⟩)) ∧
    ∀ qs, Throughout settings (LeavesFacts settings) qs ⟨s, []⟩ →
      ∃ asked, askAll settings qs ⟨s, []⟩ = some asked ∧ asked.length = qs.length ∧
        (∀ r ∈ asked, r.2.engine = s) ∧
        ∀ i j : Nat, qs[i]? = qs[j]? → (asked[i]?).map (·.1) = (asked[j]?).map (·.1) := by
  have hanswerable := answerable_of_run hrun
  refine ⟨fun q bindings hbs => ?_, fun qs hqs => ?_⟩
  · obtain ⟨answers, m, hsearch, -, hiff⟩ :=
      @searchFactsSimple_spec settings q ⟨s, bindings⟩ hanswerable hbs
    exact ⟨answers, m, hsearch, hiff⟩
  · obtain ⟨asked, hasked, hall⟩ := @askAll_spec s settings qs [] hanswerable (by simp) hqs
    refine ⟨asked, hasked, hall.length_eq.symm, fun r hr => ?_, fun i j hij =>
      answers_eq_of_forall₂ hall hij⟩
    obtain ⟨i, hi⟩ := List.mem_iff_getElem?.mp hr
    rcases Lib.forall₂_getElem? hall i with ⟨-, hnone⟩ | ⟨q, r', -, hr', hasked⟩
    · rw [hi] at hnone
      cases hnone
    · rw [hi] at hr'
      exact Option.some.inj hr' ▸ hasked.engine

theorem leavesFacts_of_nil (hbs : (firstSearch settings q m).2 = [])
    (hverbs : ∀ f ∈ m.engine.facts,
      f.verbs.head?.any (fun verb => isAEqualVerb verb.name) = false) :
    LeavesFacts settings q m where
  free a f _ _ w _ b hb := by
    rw [hbs] at hb
    cases hb
  verbs a f _ hf h := by
    have hnot := hverbs f (List.mem_of_getElem? hf)
    rw [h.equal] at hnot
    cases hnot

def germanSettings : Settings := ⟨"de".toList, "1".toList⟩

def catSleeps : Columns := { columnsOf "katze" with verbs := "schlaeft".toList }

/-- Whether the cat does what the verbs say. -/
def askCat (verbs : String) : Question where
  words := fun _ => [some ⟨"katze".toList⟩]
  subjects := [some 0]
  objects := []
  adverbs := []
  extra := []
  subjectSynonymsLevel0 := [some 0]
  verbs := verbs.toList
  context := "default".toList
  level := .exact

theorem questions_leave_facts_catSleeps : ∃ s log asked,
    runInsertions [.fact catSleeps false] = some (s, log) ∧
      askAll germanSettings [askCat "schlaeft"] ⟨s, []⟩ = some asked ∧
      ∀ r ∈ asked, r.2.engine = s := by
  have hrun : (runInsertions [.fact catSleeps false]).any (fun r =>
      decide ((firstSearch germanSettings (askCat "schlaeft") ⟨r.1, []⟩).2 = []) &&
        r.1.facts.all fun f => !f.verbs.head?.any fun verb => isAEqualVerb verb.name) = true := by
    decide +kernel
  obtain ⟨⟨s, log⟩, hrun, hleaves⟩ := (Option.any_eq_true _ _).mp hrun
  simp only [Bool.and_eq_true, decide_eq_true_eq, List.all_eq_true, Bool.not_eq_true'] at hleaves
  obtain ⟨asked, hasked, -, hsame, -⟩ := (questions_leave_facts hrun germanSettings).2
    [askCat "schlaeft"] ⟨leavesFacts_of_nil hleaves.1 hleaves.2, fun _ _ => trivial⟩
  exact ⟨s, log, asked, hrun, hasked, hsame⟩

def catIsAnimal : Columns :=
  { columnsOf "katze" with objects := "tier".toList, verbs := "is-a".toList }

/-- The first answer gets other verbs, so that the same question does not find it again. -/
theorem question_changes_answers : ∃ s log m m',
    runInsertions [.fact catIsAnimal false] = some (s, log) ∧
      searchFactsSimple germanSettings (askCat "is-a") ⟨s, []⟩ = some ([some 0], m) ∧
      m.engine ≠ s ∧
      searchFactsSimple germanSettings (askCat "is-a") m = some ([none], m') := by
  have hrun : ((runInsertions [.fact catIsAnimal false]).bind fun r =>
      (searchFactsSimple germanSettings (askCat "is-a") ⟨r.1, []⟩).bind fun first =>
        (searchFactsSimple germanSettings (askCat "is-a") first.2).map fun second =>
          (first.1, second.1, decide (first.2.engine.facts = r.1.facts))) =
      some ([some 0], [none], false) := by
    decide +kernel
  simp only [Option.bind_eq_some_iff, Option.map_eq_some_iff] at hrun
  obtain ⟨⟨s, log⟩, hrun, ⟨answers, m⟩, hfirst, ⟨answers', m'⟩, hsecond, heq⟩ := hrun
  obtain ⟨rfl, heq⟩ := Prod.mk.inj heq
  obtain ⟨rfl, hfacts⟩ := Prod.mk.inj heq
  refine ⟨s, log, m, m', hrun, hfirst, fun hengine => ?_, hsecond⟩
  exact of_decide_eq_false hfacts (congrArg Engine.facts hengine)

end Freehal.Ram
