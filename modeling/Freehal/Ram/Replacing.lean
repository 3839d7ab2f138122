import Freehal.Ram.Questions

/-!
# What a question writes to the stored facts

The replacement of variables in the facts that a search kept, and what the search for clauses reads
of the engine.
-/

namespace Freehal.Ram

open Universal (Word Bindings replaceVariablesInWord replaceVariablesInWords strstr)
open Lib (Block)

variable {s s' : Engine} {log : Log} {a fact : Nat} {f : Fact} {p : Pointer}

/-! ## The keys -/

/-- The key of each fact is its place. -/
def Keyed (s : Engine) : Prop := ∀ (a : Nat) (f : Fact), s.facts[a]? = some f → f.pk = a

theorem keyed_ramBegin : Keyed ramBegin := fun a f h => by simp [ramBegin] at h

/-- Only the fact at the place may have another key after the change. -/
theorem Keyed.modifyFact {set : Fact → Fact}
    (h : ∀ (b : Nat) (f : Fact), b ≠ a → s.facts[b]? = some f → f.pk = b)
    (hset : ∀ f, s.facts[a]? = some f → (set f).pk = a) : Keyed (s.modifyFact a set) := by
  intro b g hg
  rw [Engine.modifyFact, List.getElem?_modify] at hg
  obtain ⟨f, hf, rfl⟩ := Option.map_eq_some_iff.mp hg
  by_cases hab : a = b
  · subst hab
    rw [if_pos rfl]
    exact hset f hf
  · rw [if_neg hab]
    exact h b f (Ne.symm hab) hf

theorem keyed_insertRamFactByKey (hi : insertRamFactByKey fact s = some s') (hfact : fact = s.size)
    (h : ∀ (b : Nat) (f : Fact), b ≠ fact → s.facts[b]? = some f → f.pk = b) : Keyed s' := by
  simp only [insertRamFactByKey, Option.bind_eq_bind, Option.bind_eq_some_iff, Option.pure_def,
    Option.some.injEq] at hi
  obtain ⟨list, -, rfl⟩ := hi
  exact Keyed.modifyFact h fun f _ => (congrArg Nat.cast hfact.symm : ((s.size : Nat) : Int) = fact)

theorem Keyed.insertFactAtKey {rel : Int} (h : Keyed s)
    (hi : Ram.insertFactAtKey rel fact s = some s') : Keyed s' := by
  simp only [Ram.insertFactAtKey, Option.bind_eq_bind, Option.bind_eq_some_iff, Option.pure_def,
    Option.some.injEq] at hi
  obtain ⟨⟨owner, f⟩, -, pos, -, clauses, -, rfl⟩ := hi
  have hfact : Keyed (s.modifyFact fact fun f => { f with rel := rel }) :=
    Keyed.modifyFact (fun b f _ => h b f) fun f hf => h fact f hf
  exact Keyed.modifyFact (fun b f _ => hfact b f) fun f hf => hfact owner f hf

/-- The facts that were there, with a fresh one behind them. -/
theorem Keyed.append (h : Keyed s) {b : Nat} {g : Fact} (hb : b ≠ s.facts.length)
    (hg : (s.facts ++ [f])[b]? = some g) : g.pk = b := by
  by_cases hlt : b < s.facts.length
  · rw [List.getElem?_append_left hlt] at hg
    exact h b g hg
  · rw [List.getElem?_eq_none (by rw [List.length_append, List.length_singleton]; omega)] at hg
    cases hg

theorem Keyed.insert (h : Keyed s) (hsize : s.facts.length = s.size) {i : Insertion}
    (hi : i.insert s = some (s', p)) : Keyed s' := by
  cases i with
  | fact c onlyLogic =>
      rw [Insertion.insert, ramAddFact] at hi
      split at hi
      · cases hi
        exact h
      · simp only [Option.bind_eq_bind, Option.bind_eq_some_iff, Option.pure_def,
          Option.some.injEq, Prod.mk.injEq] at hi
        obtain ⟨s₂, hkey, rfl, -⟩ := hi
        exact keyed_insertRamFactByKey hkey hsize fun b g hb hg => h.append hb hg
  | clause rel c =>
      rw [Insertion.insert, ramAddClause] at hi
      split at hi
      · cases hi
        exact h
      · simp only [Option.bind_eq_bind, Option.bind_eq_some_iff, Option.pure_def,
          Option.some.injEq, Prod.mk.injEq] at hi
        obtain ⟨s₁, hkey, s₂, hclause, rfl, -⟩ := hi
        have hkeyed := keyed_insertRamFactByKey hkey hsize fun b g hb hg => h.append hb hg
        exact hkeyed.insertFactAtKey hclause

/-- What the insertions establish for a search of clauses. -/
theorem keyed_runFrom {is : List Insertion} {log' : Log} (hkeys : Keyed s) (h : Keeps s log)
    (hrun : runFrom s is = some (s', log')) : Keyed s' ∧ Keeps s' (log ++ log') := by
  induction is generalizing s log log' with
  | nil =>
      cases hrun
      rw [List.append_nil]
      exact ⟨hkeys, h⟩
  | cons i is ih =>
      have hi := (h.insertable hrun).1
      obtain ⟨t, p, ht, hk, -, -⟩ := h.insert i hi
      simp only [Ram.runFrom, ht, Option.bind_eq_bind, Option.bind_some, Option.bind_eq_some_iff,
        Option.pure_def, Option.some.injEq, Prod.mk.injEq] at hrun
      obtain ⟨⟨s₂, rest⟩, hrest, rfl, rfl⟩ := hrun
      obtain ⟨hall, hkeeps⟩ := ih (hkeys.insert h.facts ht) hk hrest
      exact ⟨hall, by rwa [List.append_assoc] at hkeeps⟩

/-- The search for the clauses of any stored fact reads nothing that was not written. -/
def Answerable (s : Engine) : Prop :=
  ∀ (a : Nat) (f : Fact), s.facts[a]? = some f → ∃ found, ramSearchClauses f.pk s = some found

theorem Keeps.answerable (h : Keeps s log) (hkeys : Keyed s) : Answerable s := by
  intro a f hf
  have hlt := (List.getElem?_eq_some_iff.mp hf).1
  rw [h.facts] at hlt
  have hsearch := h.search f.pk
  rw [hkeys a f hf, if_neg (by omega)] at hsearch
  obtain ⟨found, hfound, -⟩ := hsearch
  exact ⟨found, by rw [hkeys a f hf]; exact hfound⟩

theorem answerable_of_run {is : List Insertion} (hrun : runInsertions is = some (s, log)) :
    Answerable s := by
  obtain ⟨hkeys, hkeeps⟩ := keyed_runFrom keyed_ramBegin keeps_ramBegin hrun
  exact hkeeps.answerable hkeys

/-! ## One stored fact -/

theorem modifyFact_congr {set set' : Fact → Fact}
    (h : ∀ f, s.facts[a]? = some f → set f = set' f) :
    s.modifyFact a set = s.modifyFact a set' := by
  have hfacts : s.facts.modify a set = s.facts.modify a set' := by
    apply List.ext_getElem?
    intro b
    rw [List.getElem?_modify, List.getElem?_modify]
    cases hb : s.facts[b]? with
    | none => rfl
    | some f =>
        by_cases hab : a = b
        · subst hab
          simp [h f hb]
        · simp [hab]
  rw [Engine.modifyFact, hfacts, Engine.modifyFact]

theorem modifyFact_eq_self_iff {set : Fact → Fact} :
    s.modifyFact a set = s ↔ ∀ f, s.facts[a]? = some f → set f = f := by
  constructor
  · intro h f hf
    have hget := congrArg (fun t : Engine => t.facts[a]?) h
    simp only [Engine.modifyFact, List.getElem?_modify_eq, hf, Option.map_eq_map, Option.map_some,
      Option.some.injEq] at hget
    exact hget
  · intro h
    have hid : s.modifyFact a id = s := by rw [Engine.modifyFact, List.modify_id]
    exact (modifyFact_congr h).trans hid

theorem facts_modifyFact (set : Fact → Fact) (b : Nat) :
    (s.modifyFact a set).facts[b]? = if a = b then (s.facts[b]?).map set else s.facts[b]? := by
  rw [Engine.modifyFact, List.getElem?_modify]
  split
  · rfl
  · exact Option.map_id'

/-! ## Replacing variables -/

variable {bs : Bindings}

theorem facts_replaceVariablesInList {list : List Pointer} (hnodup : (list.filterMap id).Nodup)
    (b : Nat) : (replaceVariablesInList bs list s).facts[b]? =
      if some b ∈ list then (s.facts[b]?).map (replaceVariablesInFact bs) else s.facts[b]? := by
  induction list generalizing s with
  | nil => simp [replaceVariablesInList]
  | cons p list ih =>
      cases p with
      | none =>
          rw [replaceVariablesInList, ih hnodup]
          simp
      | some a =>
          obtain ⟨hnot, hrest⟩ := List.nodup_cons.mp hnodup
          rw [replaceVariablesInList, ih hrest, facts_modifyFact]
          by_cases hab : a = b
          · subst hab
            have hnot : some a ∉ list := fun h => hnot (List.mem_filterMap.mpr ⟨_, h, rfl⟩)
            simp [hnot]
          · have hne : b ≠ a := Ne.symm hab
            simp [hab, hne]

theorem replaceVariablesInList_eq_self {list : List Pointer}
    (h : ∀ a f, some a ∈ list → s.facts[a]? = some f → replaceVariablesInFact bs f = f) :
    replaceVariablesInList bs list s = s := by
  induction list with
  | nil => rfl
  | cons p list ih =>
      have hrest := ih fun a f ha => h a f (List.mem_cons_of_mem p ha)
      cases p with
      | none => exact hrest
      | some a =>
          have hfact := modifyFact_eq_self_iff.mpr fun f hf => h a f List.mem_cons_self hf
          rw [replaceVariablesInList, hfact]
          exact hrest

theorem replaceVariablesInWords_eq_self_iff (hbs : ∀ b ∈ bs, b.Recorded) {list : List Word} :
    replaceVariablesInWords bs list = list ↔
      ∀ w ∈ list, ∀ b ∈ bs, strstr w.name b.variable_.name = false := by
  have hmap : replaceVariablesInWords bs list = list ↔
      ∀ w ∈ list, replaceVariablesInWord bs w = w := by
    rw [replaceVariablesInWords]
    conv_lhs => rhs; rw [← List.map_id list]
    exact List.map_inj_left
  rw [hmap]
  refine forall₂_congr fun w _ => ?_
  rw [Universal.replaceVariablesInWord_eq_self_iff hbs]
  simp [strstr]

/-- No variable of the bindings is in a word that is replaced. -/
def Fact.Free (bs : Bindings) (f : Fact) : Prop :=
  ∀ w, f.lists.Has w → ∀ b ∈ bs, strstr w.name b.variable_.name = false

theorem replaceVariablesInFact_eq_self_iff (hbs : ∀ b ∈ bs, b.Recorded) :
    (replaceVariablesInFact bs f).lists = f.lists ↔ f.Free bs := by
  have hlists : (replaceVariablesInFact bs f).lists = f.lists ↔
      replaceVariablesInWords bs f.subjects = f.subjects ∧
        replaceVariablesInWords bs f.objects = f.objects ∧
          replaceVariablesInWords bs f.adverbs = f.adverbs := by
    simp [Fact.lists, replaceVariablesInFact, Universal.replaceVariablesInFact]
  rw [hlists, replaceVariablesInWords_eq_self_iff hbs, replaceVariablesInWords_eq_self_iff hbs,
    replaceVariablesInWords_eq_self_iff hbs]
  constructor
  · rintro ⟨hsubjects, hobjects, hadverbs⟩ w (hw | hw | hw)
    · exact hsubjects w hw
    · exact hobjects w hw
    · exact hadverbs w hw
  · intro h
    exact ⟨fun w hw => h w (Or.inl hw), fun w hw => h w (Or.inr (Or.inl hw)),
      fun w hw => h w (Or.inr (Or.inr hw))⟩

theorem replaceVariablesInFact_eq_self (hbs : ∀ b ∈ bs, b.Recorded) (h : f.Free bs) :
    replaceVariablesInFact bs f = f := by
  have hlists := (replaceVariablesInFact_eq_self_iff hbs).mpr h
  simp only [Fact.lists, Lists.mk.injEq] at hlists
  obtain ⟨hsubjects, hobjects, hadverbs⟩ := hlists
  obtain ⟨⟨⟩⟩ := f
  simp_all [replaceVariablesInFact, Universal.replaceVariablesInFact]

/-! ## What the search for clauses reads -/

/-- The fields that no question changes. -/
def Fact.frame (f : Fact) : Int × Option (Block Pointer) × Str := (f.pk, f.clauses, f.questionword)

structure SameFrame (s s' : Engine) : Prop where
  size : s'.size = s.size
  list : s'.list = s.list
  facts : ∀ a : Nat, (s'.facts[a]?).map Fact.frame = (s.facts[a]?).map Fact.frame

theorem SameFrame.refl (s : Engine) : SameFrame s s := ⟨rfl, rfl, fun _ => rfl⟩

theorem SameFrame.trans {t : Engine} (h : SameFrame s t) (h' : SameFrame t s') : SameFrame s s' :=
  ⟨h'.size.trans h.size, h'.list.trans h.list, fun a => (h'.facts a).trans (h.facts a)⟩

theorem SameFrame.modifyFact {set : Fact → Fact}
    (hset : ∀ f, s.facts[a]? = some f → (set f).frame = f.frame) :
    SameFrame s (s.modifyFact a set) := by
  refine ⟨rfl, rfl, fun b => ?_⟩
  rw [facts_modifyFact]
  split
  · rename_i hab
    subst hab
    cases hf : s.facts[a]? with
    | none => rfl
    | some f => exact congrArg some (hset f hf)
  · rfl

theorem sameFrame_replaceVariablesInList (list : List Pointer) :
    SameFrame s (replaceVariablesInList bs list s) := by
  induction list generalizing s with
  | nil => exact SameFrame.refl s
  | cons p list ih =>
      cases p with
      | none => exact ih
      | some a =>
          have hfact : SameFrame s (s.modifyFact a (replaceVariablesInFact bs)) :=
            SameFrame.modifyFact fun f _ => rfl
          exact hfact.trans ih

theorem SameFrame.stored (h : SameFrame s s') (hf : s.facts[a]? = some f) :
    ∃ f', s'.facts[a]? = some f' ∧ f'.frame = f.frame := by
  have hfacts := h.facts a
  rw [hf] at hfacts
  exact Option.map_eq_some_iff.mp hfacts

theorem SameFrame.ramSearchClauses (h : SameFrame s s') (rel : Int) :
    ramSearchClauses rel s' = ramSearchClauses rel s := by
  simp only [Ram.ramSearchClauses, h.size, h.list]
  split
  · cases s.list.read rel with
    | none => rfl
    | some pointer =>
        cases pointer with
        | none => rfl
        | some address =>
            simp only [Option.bind_eq_bind, Option.bind_some]
            have hfacts := h.facts address
            cases hf : s.facts[address]? with
            | none =>
                rw [hf, Option.map_none] at hfacts
                rw [Option.map_eq_none_iff.mp hfacts]
            | some f =>
                obtain ⟨f', hf', hframe⟩ := h.stored hf
                have hclauses : f'.clauses = f.clauses := congrArg (fun frame => frame.2.1) hframe
                rw [hf']
                simp only [Option.bind_some, hclauses]
  · rfl

theorem SameFrame.answerable (h : SameFrame s s') (hs : Answerable s) : Answerable s' := by
  intro a f' hf'
  have hfacts := h.facts a
  rw [hf'] at hfacts
  obtain ⟨f, hf, hframe⟩ := Option.map_eq_some_iff.mp hfacts.symm
  have hpk : f.pk = f'.pk := congrArg (fun frame => frame.1) hframe
  obtain ⟨found, hfound⟩ := hs a f hf
  exact ⟨found, by rw [h.ramSearchClauses, ← hpk, hfound]⟩

end Freehal.Ram
