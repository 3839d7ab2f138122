import Freehal.Ram.Asking

/-!
# Loops over the answers

The loop of a search over the facts that were found, with any rule for what becomes of a fact: the
facts that stay, and each stored fact after it. Nothing but words of facts is changed.
-/

namespace Freehal.Ram

open Universal (Bindings Binding Matcher isConditionalQuestionword)
open Lib (Adds)

variable {s t s' : Engine} {a : Nat} {f : Fact} {m m' : Memory}

/-! ## What no search changes -/

/-- The fact without the words that searches replace. -/
def Fact.rest (f : Fact) : Fact :=
  { f with subjects := [], objects := [], adverbs := [], verbs := [] }

def Engine.rest (s : Engine) : Engine := { s with facts := s.facts.map Fact.rest }

theorem rest_eq_iff : t.rest = s.rest ↔
    t.facts.map Fact.rest = s.facts.map Fact.rest ∧ t.relatedFacts = s.relatedFacts ∧
      t.size = s.size ∧ t.allocatedUntil = s.allocatedUntil ∧ t.list = s.list := by
  simp [Engine.rest]

theorem frame_of_rest {g : Fact} (h : g.rest = f.rest) : g.frame = f.frame := by
  have hframe := congrArg Fact.frame h
  exact hframe

theorem sameFrame_of_rest (h : t.rest = s.rest) : SameFrame s t := by
  obtain ⟨hfacts, -, hsize, -, hlist⟩ := rest_eq_iff.mp h
  refine ⟨hsize, hlist, fun a => ?_⟩
  have hframe : Fact.frame = Fact.frame ∘ Fact.rest := rfl
  rw [hframe, ← Option.map_map, ← Option.map_map, ← List.getElem?_map,
    ← List.getElem?_map (l := s.facts), hfacts]

/-- A stored fact, before and after a change of words. -/
theorem exists_of_rest (h : t.rest = s.rest) (hf : t.facts[a]? = some f) :
    ∃ g, s.facts[a]? = some g ∧ g.rest = f.rest := by
  have hfacts := congrArg (fun facts : List Fact => facts[a]?) (rest_eq_iff.mp h).1
  simp only [List.getElem?_map, hf, Option.map_some] at hfacts
  exact Option.map_eq_some_iff.mp hfacts.symm

theorem Keyed.of_rest (h : Keyed s) (ht : t.rest = s.rest) : Keyed t := by
  intro a f hf
  obtain ⟨g, hg, hrest⟩ := exists_of_rest ht hf
  exact (congrArg Prod.fst (frame_of_rest hrest)).symm.trans (h a g hg)

theorem Keeps.of_rest {log : Log} (h : Keeps s log) (ht : t.rest = s.rest) : Keeps t log := by
  obtain ⟨hfacts, -, hsize, huntil, hlist⟩ := rest_eq_iff.mp ht
  have hlength : t.facts.length = s.facts.length := by
    have hmap := congrArg List.length hfacts
    rwa [List.length_map, List.length_map] at hmap
  refine ⟨⟨?_, ?_, ?_, ?_, ?_⟩, ?_, fun k f hf => ?_, ?_, h.nodup⟩
  · rw [hsize, huntil, hlist]
    exact h.table.start
  · rw [hsize, huntil]
    exact h.table.room
  · rw [huntil, hlist]
    exact h.table.length
  · rw [hsize, hlist]
    exact h.table.filled
  · rw [hsize, hlist]
    exact h.table.rest
  · rw [hlength, hsize, h.facts]
  · obtain ⟨g, hg, hrest⟩ := exists_of_rest ht hf
    have hclauses : g.clauses = f.clauses := congrArg (fun frame => frame.2.1) (frame_of_rest hrest)
    exact hclauses ▸ h.clauses k g hg
  · rw [hsize]
    exact h.inside

/-! ## The facts behind a list of pointers -/

/-- The engine in which the facts behind the pointers are changed. -/
def Engine.updateFacts (s : Engine) (list : List Pointer) (set : Fact → Fact) : Engine :=
  { s with facts := s.facts.mapIdx fun a f => if some a ∈ list then set f else f }

theorem facts_updateFacts (s : Engine) (list : List Pointer) (set : Fact → Fact) (a : Nat) :
    (s.updateFacts list set).facts[a]? =
      (s.facts[a]?).map fun f => if some a ∈ list then set f else f :=
  List.getElem?_mapIdx

theorem updateFacts_nil (s : Engine) (set : Fact → Fact) : s.updateFacts [] set = s := by
  have hfacts : (s.updateFacts [] set).facts = s.facts := by
    apply List.ext_getElem?
    intro a
    rw [facts_updateFacts]
    simp
  exact congrArg (fun facts => { s with facts := facts }) hfacts

theorem updateFacts_none (s : Engine) (list : List Pointer) (set : Fact → Fact) :
    s.updateFacts (none :: list) set = s.updateFacts list set := by
  simp [Engine.updateFacts]

theorem updateFacts_some {list : List Pointer} (h : some a ∉ list) (s : Engine)
    (set : Fact → Fact) :
    s.updateFacts (some a :: list) set = (s.modifyFact a set).updateFacts list set := by
  have hfacts : (s.updateFacts (some a :: list) set).facts =
      ((s.modifyFact a set).updateFacts list set).facts := by
    apply List.ext_getElem?
    intro b
    rw [facts_updateFacts, facts_updateFacts, facts_modifyFact]
    by_cases hab : a = b
    · subst hab
      cases s.facts[a]? with
      | none => simp
      | some f => simp [h]
    · have hba : ¬b = a := fun heq => hab heq.symm
      simp [hab, hba]
  exact congrArg (fun facts => { s with facts := facts }) hfacts

/-- A change of words only. -/
theorem rest_updateFacts {set : Fact → Fact} (h : ∀ f, (set f).rest = f.rest)
    (s : Engine) (list : List Pointer) : (s.updateFacts list set).rest = s.rest := by
  have hfacts : (s.updateFacts list set).facts.map Fact.rest = s.facts.map Fact.rest := by
    apply List.ext_getElem?
    intro a
    rw [List.getElem?_map, facts_updateFacts, List.getElem?_map, Option.map_map]
    congr 1
    funext f
    rw [Function.comp_apply]
    split
    · exact h f
    · rfl
  exact rest_eq_iff.mpr ⟨hfacts, rfl, rfl, rfl, rfl⟩

theorem replaceVariablesInList_eq {bs : Bindings} {list : List Pointer}
    (h : (list.filterMap id).Nodup) :
    replaceVariablesInList bs list s = s.updateFacts list (replaceVariablesInFact bs) := by
  induction list generalizing s with
  | nil => rw [replaceVariablesInList, updateFacts_nil]
  | cons p list ih =>
      cases p with
      | none => rw [replaceVariablesInList, updateFacts_none, ih h]
      | some a =>
          obtain ⟨hnot, hrest⟩ := List.nodup_cons.mp h
          have hmem : some a ∉ list := fun hin => hnot (List.mem_filterMap.mpr ⟨_, hin, rfl⟩)
          rw [replaceVariablesInList, updateFacts_some hmem, ih hrest]

/-! ## The loop with any rule -/

section

variable (review : Fact → Matcher (Option Fact))

/-- One round: the rule, and then the clauses. -/
def reviewFactBy (a : Nat) (m : Memory) : Option (Pointer × Memory) := do
  let fact ← m.engine.facts[a]?
  let result := (review fact).run m.bindings
  match result.1 with
  | none => return (none, { m with bindings := result.2 })
  | some fact =>
      let engine := m.engine.modifyFact a fun _ => fact
      let conditional ← hasConditionalClause engine fact.pk
      return (if conditional then none else some a, ⟨engine, result.2⟩)

def reviewListBy : List Pointer → Memory → Option (List Pointer × Memory)
  | [], m => some ([], m)
  | none :: list, m => do
      let rest ← reviewListBy list m
      return (none :: rest.1, rest.2)
  | some a :: list, m => do
      let first ← reviewFactBy review a m
      let rest ← reviewListBy list first.2
      return (first.1 :: rest.1, rest.2)

end

theorem reviewList_eq_by (settings : Settings) (q : Question) (list : List Pointer) (m : Memory) :
    reviewList settings q list m = reviewListBy (reviewVerb settings q) list m := by
  induction list generalizing m with
  | nil => rfl
  | cons p list ih =>
      cases p with
      | none => simp only [reviewList, reviewListBy, ih]
      | some a =>
          have hfact : reviewFact settings q a m = reviewFactBy (reviewVerb settings q) a m := rfl
          simp only [reviewList, reviewListBy, ih, hfact]

/-- What the rule gives for each fact, whatever was recorded. -/
structure Decides (review : Fact → Matcher (Option Fact)) (result : Fact → Option Fact) : Prop where
  run : ∀ f bs, ((review f).run bs).1 = result f
  rest : ∀ f g, result f = some g → g.rest = f.rest
  records : ∀ f, Adds Binding.Recorded (review f)

section

variable (result : Fact → Option Fact)

/-- The fact after the loop. -/
def settled (f : Fact) : Fact := (result f).getD f

/-- The fact stays an answer: the rule keeps it, and it has no conditional clause. -/
def stays (s : Engine) (a : Nat) : Bool :=
  (s.facts[a]?).any fun f =>
    (result f).isSome && decide (hasConditionalClause s f.pk = some false)

end

variable {review : Fact → Matcher (Option Fact)} {result : Fact → Option Fact}

theorem Decides.rest_settled (h : Decides review result) (f : Fact) :
    (settled result f).rest = f.rest := by
  rw [settled]
  cases hg : result f with
  | none => rfl
  | some g => exact h.rest f g hg

theorem SameFrame.hasConditionalClause (h : SameFrame s s') (pk : Int) :
    hasConditionalClause s' pk = hasConditionalClause s pk := by
  have hasked : ∀ clause : Nat, (s'.facts[clause]?).any (fun f =>
      isConditionalQuestionword f.questionword) = (s.facts[clause]?).any fun f =>
        isConditionalQuestionword f.questionword := by
    intro clause
    have hany : ∀ x : Option Fact, x.any (fun f => isConditionalQuestionword f.questionword) =
        (x.map Fact.frame).any fun frame => isConditionalQuestionword frame.2.2 := by
      intro x
      cases x with
      | none => rfl
      | some f => rfl
    rw [hany, hany, h.facts]
  simp only [Ram.hasConditionalClause, h.ramSearchClauses, hasked]

theorem Decides.sameFrame (h : Decides review result) :
    SameFrame s (s.modifyFact a (settled result)) :=
  SameFrame.modifyFact fun f _ => frame_of_rest (h.rest_settled f)

theorem Decides.stays_modifyFact (h : Decides review result) {b : Nat} (hab : a ≠ b) :
    stays result (s.modifyFact a (settled result)) b = stays result s b := by
  simp only [stays, facts_modifyFact, if_neg hab, h.sameFrame.hasConditionalClause]

/-- One round, in full. -/
theorem Decides.reviewFact_eq (h : Decides review result) (hanswerable : Answerable m.engine)
    (hf : m.engine.facts[a]? = some f) :
    reviewFactBy review a m = some (if stays result m.engine a then some a else none,
      ⟨m.engine.modifyFact a (settled result), ((review f).run m.bindings).2⟩) := by
  have hrun := h.run f m.bindings
  cases hresult : result f with
  | none =>
      have hself : m.engine.modifyFact a (settled result) = m.engine := by
        refine modifyFact_eq_self_iff.mpr fun g hg => ?_
        obtain rfl := Option.some.inj (hf.symm.trans hg)
        rw [settled, hresult, Option.getD_none]
      have hnot : stays result m.engine a = false := by simp [stays, hf, hresult]
      simp only [reviewFactBy, hf, Option.bind_eq_bind, Option.bind_some, hrun, hresult, hself, hnot]
      rfl
  | some g =>
      have hset : (m.engine.modifyFact a fun _ => g) = m.engine.modifyFact a (settled result) := by
        refine modifyFact_congr fun g' hg' => ?_
        obtain rfl := Option.some.inj (hf.symm.trans hg')
        rw [settled, hresult, Option.getD_some]
      have hpk : g.pk = f.pk := congrArg Prod.fst (frame_of_rest (h.rest f g hresult))
      obtain ⟨found, hfound⟩ := hanswerable a f hf
      obtain ⟨c, hc⟩ := exists_hasConditionalClause hfound
      have hstays : stays result m.engine a = !c := by
        cases c with
        | true => simp [stays, hf, hc]
        | false => simp [stays, hf, hc, hresult]
      simp only [reviewFactBy, hf, Option.bind_eq_bind, Option.bind_some, hrun, hresult, hset, hpk,
        h.sameFrame.hasConditionalClause, hc, hstays]
      cases c with
      | true => rfl
      | false => rfl

/-- The whole loop: the answers that stay, and each fact after it. -/
theorem Decides.reviewList_eq {list : List Pointer} (h : Decides review result)
    (hanswerable : Answerable m.engine) (hnodup : (list.filterMap id).Nodup)
    (hstored : ∀ a, some a ∈ list → ∃ f, m.engine.facts[a]? = some f)
    (hbs : ∀ b ∈ m.bindings, b.Recorded) :
    ∃ bs, (∀ b ∈ bs, b.Recorded) ∧ reviewListBy review list m =
      some (list.map (Option.filter (stays result m.engine)),
        ⟨m.engine.updateFacts list (settled result), bs⟩) := by
  induction list generalizing m with
  | nil => exact ⟨m.bindings, hbs, by rw [reviewListBy, updateFacts_nil, List.map_nil]⟩
  | cons p list ih =>
      cases p with
      | none =>
          obtain ⟨bs, hbs', hrun⟩ := ih hanswerable hnodup
            (fun a ha => hstored a (List.mem_cons_of_mem _ ha)) hbs
          refine ⟨bs, hbs', ?_⟩
          simp only [reviewListBy, hrun, Option.bind_eq_bind, Option.bind_some, updateFacts_none]
          rfl
      | some a =>
          obtain ⟨f, hf⟩ := hstored a List.mem_cons_self
          obtain ⟨hnot, hrest⟩ := List.nodup_cons.mp hnodup
          have hmem : some a ∉ list := fun hin => hnot (List.mem_filterMap.mpr ⟨_, hin, rfl⟩)
          have hframe : SameFrame m.engine (m.engine.modifyFact a (settled result)) := h.sameFrame
          obtain ⟨bs, hbs', hrun⟩ := @ih ⟨m.engine.modifyFact a (settled result),
            ((review f).run m.bindings).2⟩ (hframe.answerable hanswerable) hrest
            (fun b hb => by
              obtain ⟨g, hg⟩ := hstored b (List.mem_cons_of_mem _ hb)
              obtain ⟨g', hg', -⟩ := hframe.stored hg
              exact ⟨g', hg'⟩)
            ((h.records f).forall hbs)
          have hsame : list.map (Option.filter
              (stays result (m.engine.modifyFact a (settled result)))) =
                list.map (Option.filter (stays result m.engine)) := by
            refine List.map_congr_left fun p hp => ?_
            cases p with
            | none => rfl
            | some b =>
                have hab : a ≠ b := fun heq => hmem (heq ▸ hp)
                rw [Option.filter_some, Option.filter_some, h.stays_modifyFact hab]
          refine ⟨bs, hbs', ?_⟩
          simp only [reviewListBy, h.reviewFact_eq hanswerable hf, hrun, Option.bind_eq_bind,
            Option.bind_some, hsame, updateFacts_some hmem]
          rfl

end Freehal.Ram
