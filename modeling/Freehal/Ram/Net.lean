import Freehal.Ram.Search

/-!
# What the net holds

After any insertions the net has every fact that `ram_add_fact` added, and nothing else, under the
first hundred words of its subjects, its objects and its adverbs.
-/

namespace Freehal.Ram

open Universal (Word Config isATrivialWord)

variable {s s' : Engine} {log : Log} {a fact : Nat} {w : Word} {p : Pointer}

/-- The lists that the net is searched by. -/
structure Lists where
  subjects : List Word
  objects : List Word
  adverbs : List Word
deriving DecidableEq

def Fact.lists (f : Fact) : Lists := ⟨f.subjects, f.objects, f.adverbs⟩

/-- The word is in one of the lists. -/
def Lists.Has (l : Lists) (w : Word) : Prop := w ∈ l.subjects ∨ w ∈ l.objects ∨ w ∈ l.adverbs

/-- The part of each list that the insertion reads. -/
def Lists.front (l : Lists) : Lists := ⟨l.subjects.take 100, l.objects.take 100, l.adverbs.take 100⟩

theorem Lists.Has.of_front {l : Lists} (h : l.front.Has w) : l.Has w :=
  Or.imp List.mem_of_mem_take (Or.imp List.mem_of_mem_take List.mem_of_mem_take) h

def Engine.listsAt (s : Engine) (a : Nat) : Option Lists := (s.facts[a]?).map Fact.lists

/-! ## One insertion -/

theorem mem_relatedFacts_insert {list : List Word} :
    a ∈ (insertFactByListIntoRamNet list fact s).relatedFacts w ↔
      a ∈ s.relatedFacts w ∨ (a = fact ∧ w ∈ list.take 100) := by
  have hfold : ∀ (ws : List Word) (net : Word → List Nat),
      a ∈ ws.foldl (fun net word => Function.update net word (net word ++ [fact])) net w ↔
        a ∈ net w ∨ (a = fact ∧ w ∈ ws) := by
    intro ws
    induction ws with
    | nil => simp
    | cons word ws ih =>
        intro net
        rw [List.foldl_cons, ih]
        by_cases heq : w = word
        · subst heq
          simp only [Function.update_self, List.mem_append, List.mem_cons, true_or, and_true]
          tauto
        · simp [heq]
  exact hfold _ _

theorem listsAt_modifyFact {set : Fact → Fact} (hset : ∀ f, (set f).lists = f.lists) :
    (s.modifyFact fact set).listsAt a = s.listsAt a := by
  rw [Engine.listsAt, Engine.modifyFact, List.getElem?_modify, Engine.listsAt]
  cases s.facts[a]? with
  | none => rfl
  | some f =>
      simp only [Option.map_eq_map, Option.map_some, Option.some.injEq]
      split
      · exact hset f
      · rfl

/-- What the insertions into the table and the clauses do not touch. -/
structure SameNet (s s' : Engine) : Prop where
  related : s'.relatedFacts = s.relatedFacts
  lists : ∀ a, s'.listsAt a = s.listsAt a

theorem insertRamFactByKey_net (h : insertRamFactByKey fact s = some s') : SameNet s s' := by
  simp only [insertRamFactByKey, Option.bind_eq_bind, Option.bind_eq_some_iff, Option.pure_def,
    Option.some.injEq] at h
  obtain ⟨list, -, rfl⟩ := h
  exact ⟨rfl, fun a => listsAt_modifyFact fun f => rfl⟩

theorem insertFactAtKey_net {rel : Int} (h : insertFactAtKey rel fact s = some s') :
    SameNet s s' := by
  simp only [insertFactAtKey, Option.bind_eq_bind, Option.bind_eq_some_iff, Option.pure_def,
    Option.some.injEq] at h
  obtain ⟨⟨owner, f⟩, -, pos, -, clauses, -, rfl⟩ := h
  refine ⟨rfl, fun a => ?_⟩
  rw [listsAt_modifyFact (by intro f; rfl), listsAt_modifyFact (by intro f; rfl)]

/-- A fresh fact. -/
theorem listsAt_append (f : Fact) (a : Nat) :
    Engine.listsAt { s with facts := s.facts ++ [f] } a =
      if a = s.facts.length then some f.lists else s.listsAt a := by
  rw [Engine.listsAt, Engine.listsAt]
  by_cases heq : a = s.facts.length
  · rw [if_pos heq, heq, List.getElem?_concat_length, Option.map_some]
  · rw [if_neg heq]
    by_cases hlt : a < s.facts.length
    · rw [List.getElem?_append_left hlt]
    · rw [List.getElem?_eq_none (by simp; omega), List.getElem?_eq_none (by omega)]

/-! ## Any insertions -/

/-- What the log says of the facts, and what the net has of them. -/
structure Indexed (s : Engine) (log : Log) : Prop where
  stored : ∀ i a, (i, some a) ∈ log → s.listsAt a = some i.columns.fact.lists
  fresh : ∀ i a, (i, some a) ∈ log → a < s.facts.length
  related : ∀ w a, a ∈ s.relatedFacts w ↔
    ∃ c onlyLogic, (Insertion.fact c onlyLogic, some a) ∈ log ∧ c.fact.lists.front.Has w

theorem indexed_ramBegin : Indexed ramBegin [] where
  stored i a h := by cases h
  fresh i a h := by cases h
  related w a := by simp [ramBegin]

/-- A rejected insertion. -/
theorem Indexed.rejected (h : Indexed s log) (i : Insertion) : Indexed s (log ++ [(i, none)]) where
  stored j a hj := h.stored j a (by simpa using hj)
  fresh j a hj := h.fresh j a (by simpa using hj)
  related w a := by
    rw [h.related]
    simp

/-- An insertion that allocates a fact. The net only differs by this fact. -/
theorem Indexed.allocated (h : Indexed s log) {i : Insertion} {f : Fact} {s₁ : Engine}
    (hf : f.lists = i.columns.fact.lists) (hnet : SameNet s₁ s')
    (hfacts : s₁.facts = s.facts ++ [f]) (hlength : s'.facts.length = s₁.facts.length)
    (hrelated : ∀ w a, a ∈ s₁.relatedFacts w ↔ a ∈ s.relatedFacts w ∨ (a = s.facts.length ∧
      ∃ c onlyLogic, i = .fact c onlyLogic ∧ c.fact.lists.front.Has w)) :
    Indexed s' (log ++ [(i, some s.facts.length)]) where
  stored j a hj := by
    have hlists : s₁.listsAt a = if a = s.facts.length then some f.lists else s.listsAt a := by
      rw [← listsAt_append f a, Engine.listsAt, hfacts]
      rfl
    rw [hnet.lists, hlists]
    rcases List.mem_append.mp hj with hj | hj
    · have := h.fresh j a hj
      rw [if_neg (by omega), h.stored j a hj]
    · simp only [List.mem_singleton, Prod.mk.injEq, Option.some.injEq] at hj
      rw [if_pos hj.2, hf, hj.1]
  fresh j a hj := by
    rw [hlength, hfacts, List.length_append, List.length_singleton]
    rcases List.mem_append.mp hj with hj | hj
    · have := h.fresh j a hj
      omega
    · simp only [List.mem_singleton, Prod.mk.injEq, Option.some.injEq] at hj
      omega
  related w a := by
    rw [hnet.related, hrelated, h.related]
    constructor
    · rintro (⟨c, onlyLogic, hmem, hhas⟩ | ⟨rfl, c, onlyLogic, rfl, hhas⟩)
      · exact ⟨c, onlyLogic, List.mem_append_left _ hmem, hhas⟩
      · exact ⟨c, onlyLogic, by simp, hhas⟩
    · rintro ⟨c, onlyLogic, hmem, hhas⟩
      rcases List.mem_append.mp hmem with hmem | hmem
      · exact Or.inl ⟨c, onlyLogic, hmem, hhas⟩
      · simp only [List.mem_singleton, Prod.mk.injEq, Option.some.injEq] at hmem
        exact Or.inr ⟨hmem.2, c, onlyLogic, hmem.1.symm, hhas⟩

theorem length_insertRamFactByKey (h : insertRamFactByKey fact s = some s') :
    s'.facts.length = s.facts.length := by
  simp only [insertRamFactByKey, Option.bind_eq_bind, Option.bind_eq_some_iff, Option.pure_def,
    Option.some.injEq] at h
  obtain ⟨list, -, rfl⟩ := h
  simp [Engine.modifyFact]

theorem length_insertFactAtKey {rel : Int} (h : insertFactAtKey rel fact s = some s') :
    s'.facts.length = s.facts.length := by
  simp only [insertFactAtKey, Option.bind_eq_bind, Option.bind_eq_some_iff, Option.pure_def,
    Option.some.injEq] at h
  obtain ⟨⟨owner, f⟩, -, pos, -, clauses, -, rfl⟩ := h
  simp [Engine.modifyFact]

theorem Indexed.insert (h : Indexed s log) {i : Insertion} (hi : i.insert s = some (s', p)) :
    Indexed s' (log ++ [(i, p)]) := by
  cases i with
  | fact c onlyLogic =>
      rw [Insertion.insert, ramAddFact] at hi
      split at hi
      · cases hi
        exact h.rejected _
      · simp only [Option.bind_eq_bind, Option.bind_eq_some_iff, Option.pure_def,
          Option.some.injEq, Prod.mk.injEq] at hi
        obtain ⟨s₂, hkey, rfl, rfl⟩ := hi
        refine h.allocated (f := { c.fact with onlyLogic := onlyLogic }) rfl
          (insertRamFactByKey_net hkey) rfl (length_insertRamFactByKey hkey) ?_
        intro w a
        rw [mem_relatedFacts_insert, mem_relatedFacts_insert, mem_relatedFacts_insert]
        simp only [Insertion.fact.injEq, Lists.Has, Lists.front, Fact.lists]
        constructor
        · rintro (((hold | ⟨rfl, hw⟩) | ⟨rfl, hw⟩) | ⟨rfl, hw⟩)
          · exact Or.inl hold
          · exact Or.inr ⟨rfl, c, onlyLogic, ⟨rfl, rfl⟩, Or.inl hw⟩
          · exact Or.inr ⟨rfl, c, onlyLogic, ⟨rfl, rfl⟩, Or.inr (Or.inl hw)⟩
          · exact Or.inr ⟨rfl, c, onlyLogic, ⟨rfl, rfl⟩, Or.inr (Or.inr hw)⟩
        · rintro (hold | ⟨rfl, c', onlyLogic', ⟨rfl, rfl⟩, hw | hw | hw⟩)
          · exact Or.inl (Or.inl (Or.inl hold))
          · exact Or.inl (Or.inl (Or.inr ⟨rfl, hw⟩))
          · exact Or.inl (Or.inr ⟨rfl, hw⟩)
          · exact Or.inr ⟨rfl, hw⟩
  | clause rel c =>
      rw [Insertion.insert, ramAddClause] at hi
      split at hi
      · cases hi
        exact h.rejected _
      · simp only [Option.bind_eq_bind, Option.bind_eq_some_iff, Option.pure_def,
          Option.some.injEq, Prod.mk.injEq] at hi
        obtain ⟨s₁, hkey, s₂, hclause, rfl, rfl⟩ := hi
        have hnet := insertRamFactByKey_net hkey
        have hnet' := insertFactAtKey_net hclause
        have hboth : SameNet { s with facts := s.facts ++ [c.fact] } s₂ :=
          ⟨hnet'.related.trans hnet.related, fun a => (hnet'.lists a).trans (hnet.lists a)⟩
        refine h.allocated (f := c.fact) rfl hboth rfl
          ((length_insertFactAtKey hclause).trans (length_insertRamFactByKey hkey)) ?_
        simp

theorem Indexed.runFrom {is : List Insertion} {log' : Log} (h : Indexed s log)
    (hrun : runFrom s is = some (s', log')) : Indexed s' (log ++ log') := by
  induction is generalizing s log log' with
  | nil =>
      cases hrun
      rwa [List.append_nil]
  | cons i is ih =>
      simp only [Ram.runFrom, Option.bind_eq_bind, Option.bind_eq_some_iff, Option.pure_def,
        Option.some.injEq, Prod.mk.injEq] at hrun
      obtain ⟨⟨s₁, p⟩, hinsert, ⟨s₂, rest⟩, hrest, rfl, rfl⟩ := hrun
      have hall := ih (h.insert hinsert) hrest
      rwa [List.append_assoc] at hall

/-! ## The search -/

section

variable {cfg : Config} {group : Nat → List Word} {words : List Nat} {limit : Int}

/-- A word that is searched for: it is in one of the arrays, and not trivial. -/
def Searched (cfg : Config) (group : Nat → List Word) (words : List Nat) (w : Word) : Prop :=
  ∃ p ∈ words, w ∈ group p ∧ isATrivialWord cfg w.name = false

/-- The facts that are found: no fact twice, no more than the limit allows, and facts that have one
of the words. -/
structure Found (s : Engine) (cfg : Config) (group : Nat → List Word) (words : List Nat)
    (limit : Int) (facts : List Nat) : Prop where
  nodup : facts.Nodup
  length : (facts.length : Int) ≤ max limit 0
  has : ∀ a ∈ facts, ∃ f, s.facts[a]? = some f ∧ ∃ w, Searched cfg group words w ∧ f.lists.Has w

/-- All facts that have one of the words are found, if the limit is not reached. -/
def FindsAll (s : Engine) (cfg : Config) (group : Nat → List Word) (words : List Nat)
    (limit : Int) (facts : List Nat) : Prop :=
  (facts.length : Int) < limit → ∀ a f, s.facts[a]? = some f →
    (∃ w, Searched cfg group words w ∧ f.lists.Has w) → a ∈ facts

theorem Indexed.found (h : Indexed s log) (words : List Nat) :
    Found s cfg group words limit (ramSearchFactsForWordsInNet cfg s group limit words) := by
  have hcollected : Collected s limit (Searched cfg group words)
      (ramSearchFactsForWordsInNet cfg s group limit words) :=
    (Collected.nil _).searchGroups fun p hp w hw htrivial => ⟨p, hp, hw, htrivial⟩
  refine ⟨hcollected.nodup, hcollected.length, ?_⟩
  intro a ha
  obtain ⟨w, hsearched, hrelated⟩ := hcollected.related a ha
  obtain ⟨c, onlyLogic, hmem, hhas⟩ := (h.related w a).mp hrelated
  obtain ⟨f, hf, hlists⟩ := Option.map_eq_some_iff.mp (h.stored _ a hmem)
  exact ⟨f, hf, w, hsearched, hlists ▸ hhas.of_front⟩

/-- A search finds facts as it should, and all that `ram_add_fact` added with one of the words among
the first hundred of a list, if the limit is not reached. -/
theorem search_finds {is : List Insertion} (hrun : runInsertions is = some (s, log))
    (hnames : ∀ p ∈ words, ∀ w ∈ group p, w.name ≠ []) :
    Found s cfg group words limit (ramSearchFactsForWordsInNet cfg s group limit words) ∧
      (((ramSearchFactsForWordsInNet cfg s group limit words).length : Int) < limit →
        ∀ c onlyLogic a f, (Insertion.fact c onlyLogic, some a) ∈ log → s.facts[a]? = some f →
          (∃ w, Searched cfg group words w ∧ f.lists.front.Has w) →
            a ∈ ramSearchFactsForWordsInNet cfg s group limit words) := by
  have hindexed : Indexed s log := indexed_ramBegin.runFrom hrun
  refine ⟨hindexed.found words, ?_⟩
  intro hroom c onlyLogic a f hmem hf hhas
  obtain ⟨w, ⟨p, hp, hw, htrivial⟩, hfront⟩ := hhas
  have hlists : f.lists = c.fact.lists := by
    have hstored := hindexed.stored _ a hmem
    rw [Engine.listsAt, hf, Option.map_some, Option.some.injEq] at hstored
    exact hstored
  have hcovered := covered_searchGroups hnames hroom (by simp) p hp
  exact hcovered w hw htrivial a ((hindexed.related w a).mpr ⟨c, onlyLogic, hmem, hlists ▸ hfront⟩)

end

/-! ## What a search misses -/

def noLanguage : Config := ⟨false, []⟩

/-- A hundred words before the word `b`. -/
def longFact : Columns where
  subjects := (List.replicate 100 ['a', ' ']).flatten ++ ['b']
  objects := []
  verbs := []
  adverbs := []
  extra := []
  questionword := []
  filename := []
  line := []
  truth := 1

def shortFact : Columns := { longFact with subjects := ['b'] }

/-- The word `b`, alone in an array. -/
def wordB : Nat → List Word := fun _ => [⟨['b']⟩]

/-- The fact has the word, and the search stops short of the limit without it. -/
def isMissed (a : Nat) (s : Engine) : Bool :=
  ((s.facts[a]?).any fun f => f.subjects.contains ⟨['b']⟩) &&
    !(ramSearchFactsForWordsInNet noLanguage s wordB 10 [0]).contains a &&
      decide ((ramSearchFactsForWordsInNet noLanguage s wordB 10 [0]).length < 10)

theorem not_findsAll_of_isMissed {is : List Insertion}
    (h : (runInsertions is).any (fun r => isMissed a r.1) = true) :
    ∃ s log, runInsertions is = some (s, log) ∧ ¬ FindsAll s noLanguage wordB [0] 10
      (ramSearchFactsForWordsInNet noLanguage s wordB 10 [0]) := by
  rw [Option.any_eq_true] at h
  obtain ⟨⟨s, log⟩, hrun, hmissed⟩ := h
  refine ⟨s, log, hrun, fun hall => ?_⟩
  simp only [isMissed, Bool.and_eq_true, decide_eq_true_eq, Bool.not_eq_true', Option.any_eq_true,
    List.contains_eq_mem, decide_eq_false_iff_not] at hmissed
  obtain ⟨⟨⟨f, hf, hb⟩, hnot⟩, hroom⟩ := hmissed
  refine hnot (hall (by omega) a f hf ⟨⟨['b']⟩, ⟨0, by simp, by simp [wordB], rfl⟩, Or.inl hb⟩)

/-- A search finds neither a fact with the word behind a hundred others nor a clause with it. -/
theorem search_misses :
    (∃ s log, runInsertions [.fact longFact false] = some (s, log) ∧
        ¬ FindsAll s noLanguage wordB [0] 10
          (ramSearchFactsForWordsInNet noLanguage s wordB 10 [0])) ∧
      ∃ s log, runInsertions [.fact shortFact false, .clause 0 shortFact] = some (s, log) ∧
        ¬ FindsAll s noLanguage wordB [0] 10
          (ramSearchFactsForWordsInNet noLanguage s wordB 10 [0]) :=
  ⟨@not_findsAll_of_isMissed 0 _ (by decide +kernel),
    @not_findsAll_of_isMissed 1 _ (by decide +kernel)⟩

theorem search_finds_shortFact : ∃ s log, runInsertions [.fact shortFact false] = some (s, log) ∧
    Found s noLanguage wordB [0] 10 (ramSearchFactsForWordsInNet noLanguage s wordB 10 [0]) := by
  obtain ⟨⟨s, log⟩, hrun⟩ := Option.isSome_iff_exists.mp
    (by decide +kernel : (runInsertions [.fact shortFact false]).isSome = true)
  exact ⟨s, log, hrun, (search_finds hrun (by decide)).1⟩

end Freehal.Ram
