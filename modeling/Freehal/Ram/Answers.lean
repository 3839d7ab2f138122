import Freehal.Ram.Loops

/-!
# The answers to a question

Which of the facts that a question finds are its answers, and what becomes of the stored facts, in
terms of the insertions before it.
-/

namespace Freehal.Ram

open Universal (Word Config Bindings Binding Matcher isAFactVerb isAEqualVerb
  isConditionalQuestionword)

variable {s s' : Engine} {a : Nat} {f : Fact} {log : Log} {settings : Settings} {q : Question}
  {m m' : Memory}

/-! ## The review of one fact -/

section

variable (settings : Settings) (q : Question)

/-- The fact has a verb with which it is given as an answer only from some files, and is from
another one. -/
def isRefused (f : Fact) : Bool :=
  (f.verbs.head?.any fun verb => isAFactVerb verb.name) && !q.verbs.isEmpty &&
    ((comesFromOtherFile settings q f).run []).1

def isRewritten (f : Fact) : Bool :=
  (f.verbs.head?.any fun verb => isAEqualVerb verb.name) && !q.verbs.isEmpty &&
    !((comesFromOtherFile settings q f).run []).1

/-- What the review makes of a fact. -/
def simpleResult (f : Fact) : Option Fact :=
  if isRefused settings q f then none
  else some (if isRewritten settings q f then f.withEqual else f)

end

theorem reviewVerb_eq (bs : Bindings) : ((reviewVerb settings q f).run bs).1 =
    simpleResult settings q f := by
  cases hverbs : f.verbs with
  | nil =>
      simp only [reviewVerb, isRefused, simpleResult, isRewritten, hverbs]
      rfl
  | cons verb rest =>
      by_cases hfact : isAFactVerb verb.name = true ∧ q.verbs ≠ []
      · rw [@reviewVerb_run f settings q verb rest hverbs hfact bs]
        have hasked : q.verbs.isEmpty = false := by simpa using hfact.2
        simp only [isRefused, simpleResult, isRewritten, hverbs, List.head?_cons, Option.any_some, hfact,
          hasked]
        cases ((comesFromOtherFile settings q f).run []).1 with
        | true => rfl
        | false =>
            cases isAEqualVerb verb.name with
            | true => rfl
            | false => rfl
      · have hrefused : isRefused settings q f = false := by
          simp only [isRefused, hverbs, List.head?_cons, Option.any_some]
          by_contra h
          simp at h
          exact hfact ⟨h.1, h.2.1⟩
        have hrewritten : isRewritten settings q f = false := by
          simp only [isRewritten, hverbs, List.head?_cons, Option.any_some]
          by_contra h
          simp at h
          exact hfact ⟨isAFactVerb_of_isAEqualVerb h.1, h.2.1⟩
        simp only [reviewVerb, hverbs, if_neg hfact, simpleResult, hrefused, hrewritten]
        rfl

theorem decides_reviewVerb (settings : Settings) (q : Question) :
    Decides (reviewVerb settings q) (simpleResult settings q) where
  run f bs := reviewVerb_eq bs
  rest f g h := by
    rw [simpleResult] at h
    split at h
    · cases h
    · rw [← Option.some.inj h]
      split
      · rfl
      · rfl
  records f := reviewVerb_records

/-! ## What was inserted -/

/-- What a fact keeps of its columns for good. -/
def Fact.kept (f : Fact) : Fact :=
  { f.rest with pk := 0, clauses := none, rel := 0, onlyLogic := false }

/-- Each fact has kept what its insertion gave it. -/
def Stored (s : Engine) (log : Log) : Prop :=
  ∀ i a, (i, some a) ∈ log → (s.facts[a]?).map Fact.kept = some i.columns.fact.kept

theorem kept_modifyFact {set : Fact → Fact} (h : ∀ f, (set f).kept = f.kept)
    (b : Nat) : ((s.modifyFact a set).facts[b]?).map Fact.kept =
      (s.facts[b]?).map Fact.kept := by
  rw [facts_modifyFact]
  split
  · cases s.facts[b]? with
    | none => rfl
    | some f => exact congrArg some (h f)
  · rfl

/-- The texts after a fresh fact got its key, and perhaps its owner. -/
theorem Stored.allocated (h : Stored s log) {i : Insertion} (hf : f.kept = i.columns.fact.kept)
    (hsame : ∀ b : Nat, (s'.facts[b]?).map Fact.kept =
      ((s.facts ++ [f])[b]?).map Fact.kept) :
    Stored s' (log ++ [(i, some s.facts.length)]) := by
  intro j b hj
  rw [hsame]
  rcases List.mem_append.mp hj with hj | hj
  · obtain ⟨g, hg, -⟩ := Option.map_eq_some_iff.mp (h j b hj)
    rw [List.getElem?_append_left (List.getElem?_eq_some_iff.mp hg).1]
    exact h j b hj
  · obtain ⟨rfl, hb⟩ := Prod.mk.inj (List.mem_singleton.mp hj)
    rw [Option.some.inj hb, List.getElem?_concat_length, Option.map_some, hf]

theorem kept_insertRamFactByKey {fact : Nat} (h : insertRamFactByKey fact s = some s')
    (b : Nat) : (s'.facts[b]?).map Fact.kept = (s.facts[b]?).map Fact.kept := by
  simp only [insertRamFactByKey, Option.bind_eq_bind, Option.bind_eq_some_iff, Option.pure_def,
    Option.some.injEq] at h
  obtain ⟨list, -, rfl⟩ := h
  exact kept_modifyFact (by intro f; rfl) b

theorem kept_insertFactAtKey {rel : Int} {fact : Nat}
    (h : insertFactAtKey rel fact s = some s') (b : Nat) :
    (s'.facts[b]?).map Fact.kept = (s.facts[b]?).map Fact.kept := by
  simp only [insertFactAtKey, Option.bind_eq_bind, Option.bind_eq_some_iff, Option.pure_def,
    Option.some.injEq] at h
  obtain ⟨⟨owner, f⟩, -, pos, -, clauses, -, rfl⟩ := h
  rw [kept_modifyFact (by intro f; rfl), kept_modifyFact (by intro f; rfl)]

theorem Stored.insert (h : Stored s log) {i : Insertion} {p : Pointer} (hi : i.insert s = some (s', p)) :
    Stored s' (log ++ [(i, p)]) := by
  have hrejected : Stored s (log ++ [(i, none)]) := fun j a hj => h j a (by simpa using hj)
  cases i with
  | fact c onlyLogic =>
      rw [Insertion.insert, ramAddFact] at hi
      split at hi
      · cases hi
        exact hrejected
      · simp only [Option.bind_eq_bind, Option.bind_eq_some_iff, Option.pure_def,
          Option.some.injEq, Prod.mk.injEq] at hi
        obtain ⟨s₂, hkey, rfl, rfl⟩ := hi
        exact h.allocated (f := { c.fact with onlyLogic := onlyLogic }) rfl
          (kept_insertRamFactByKey hkey)
  | clause rel c =>
      rw [Insertion.insert, ramAddClause] at hi
      split at hi
      · cases hi
        exact hrejected
      · simp only [Option.bind_eq_bind, Option.bind_eq_some_iff, Option.pure_def,
          Option.some.injEq, Prod.mk.injEq] at hi
        obtain ⟨s₁, hkey, s₂, hclause, rfl, rfl⟩ := hi
        exact h.allocated (f := c.fact) rfl fun b =>
          (kept_insertFactAtKey hclause b).trans (kept_insertRamFactByKey hkey b)

/-! ## The clauses of an answer -/

/-- The clauses that were added with this key, with their columns. -/
def Log.clauseEntriesAt (log : Log) (rel : Int) : List (Nat × Columns) :=
  log.filterMap fun call =>
    match call with
    | (.clause r c, some a) => if r = rel then some (a, c) else none
    | _ => none

theorem clausesAt_eq_map (log : Log) (rel : Int) :
    log.clausesAt rel = (log.clauseEntriesAt rel).map (·.1) := by
  rw [Log.clausesAt, Log.clauseEntriesAt, List.map_filterMap]
  refine List.filterMap_congr fun call _ => ?_
  obtain ⟨i, p⟩ := call
  cases i with
  | fact c onlyLogic => cases p <;> rfl
  | clause r c =>
      cases p with
      | none => by_cases hr : r = rel <;> simp [hr]
      | some a => by_cases hr : r = rel <;> simp [hr]

theorem mem_log_of_mem_clauseEntriesAt {rel : Int} {e : Nat × Columns}
    (h : e ∈ log.clauseEntriesAt rel) : (Insertion.clause rel e.2, some e.1) ∈ log := by
  obtain ⟨⟨i, p⟩, hcall, heq⟩ := List.mem_filterMap.mp h
  cases i with
  | fact c onlyLogic => cases p <;> cases heq
  | clause r c =>
      cases p with
      | none => cases heq
      | some a =>
          obtain ⟨hr, rfl⟩ : r = rel ∧ (a, c) = e := by simpa using heq
          exact hr ▸ hcall

/-- The clause has a conditional question word. -/
def isConditional (s : Engine) (clause : Nat) : Bool :=
  (s.facts[clause]?).any fun f => isConditionalQuestionword f.questionword

theorem Stored.isConditional (h : Stored s log) {i : Insertion} (hi : (i, some a) ∈ log) :
    isConditional s a = isConditionalQuestionword i.columns.questionword := by
  obtain ⟨f, hf, hkept⟩ := Option.map_eq_some_iff.mp (h i a hi)
  have hword : f.questionword = i.columns.questionword :=
    congrArg (fun kept : Fact => kept.questionword) hkept
  rw [Ram.isConditional, hf, Option.any_some, hword]

theorem Stored.of_rest {t : Engine} (h : Stored s log) (ht : t.rest = s.rest) : Stored t log := by
  intro i a hi
  rw [← h i a hi]
  have hkept : Fact.kept = Fact.kept ∘ Fact.rest := rfl
  rw [hkept, ← Option.map_map, ← Option.map_map, ← List.getElem?_map,
    ← List.getElem?_map (l := s.facts), (rest_eq_iff.mp ht).1]

/-- None of the first twenty clauses of the fact is conditional. -/
def Log.Unconditional (log : Log) (rel : Int) : Prop :=
  ∀ e ∈ (log.clauseEntriesAt rel).take 20, isConditionalQuestionword e.2.questionword = false

theorem Stored.unconditional_iff (h : Stored s log) (rel : Int) :
    log.Unconditional rel ↔ ∀ c ∈ (log.clausesAt rel).take 20, Ram.isConditional s c = false := by
  rw [clausesAt_eq_map, ← List.map_take, List.forall_mem_map]
  refine forall₂_congr fun e he => ?_
  rw [h.isConditional (mem_log_of_mem_clauseEntriesAt (List.mem_of_mem_take he))]
  rfl

theorem validPrefix_range {α : Type} {l : List α} {n : Nat} (h : l.length < n) :
    validPrefix ((List.range n).map fun k => l[k]?) = l := by
  induction l generalizing n with
  | nil =>
      obtain ⟨n, rfl⟩ : ∃ k, n = k + 1 := ⟨n - 1, by simp at h; omega⟩
      rw [List.range_succ_eq_map]
      rfl
  | cons a l ih =>
      obtain ⟨n, rfl⟩ : ∃ k, n = k + 1 := ⟨n - 1, by simp at h; omega⟩
      have hrest : l.length < n := by simpa using h
      rw [List.range_succ_eq_map, List.map_cons, List.map_map]
      exact congrArg (a :: ·) (ih hrest)

theorem HasClauses.validPrefix_eq {b : Lib.Block Pointer} {l : List Nat}
    (h : HasClauses (some b) l) (hl : l.length ≤ 20) :
    validPrefix (b.cells.map Option.join) = l := by
  have hjoin : (Option.join ∘ fun k : Nat => some l[k]?) = fun k : Nat => l[k]? := rfl
  rw [Slots.cells_eq h hl, List.map_map, hjoin]
  exact validPrefix_range (by omega)

theorem hasConditionalClause_eq (h : Keeps s log) {pk : Nat} (hpk : pk < s.size) :
    hasConditionalClause s pk = some (((log.clausesAt pk).take 20).any (isConditional s)) := by
  obtain ⟨found, hfound, hclauses⟩ := h.search_clauses (Int.natCast_nonneg pk) (by omega)
  cases found with
  | none =>
      have hnil : (log.clausesAt pk).take 20 = [] := hclauses
      rw [hasConditionalClause, hfound, hnil]
      rfl
  | some b =>
      rw [hasConditionalClause, hfound]
      exact congrArg (fun l : List Nat => some (l.any (isConditional s)))
        (hclauses.validPrefix_eq (List.length_take_le 20 _))

/-- What the store keeps of the log, whatever is asked. -/
structure Maintained (s : Engine) (log : Log) : Prop where
  keeps : Keeps s log
  keyed : Keyed s
  stored : Stored s log

theorem Maintained.of_rest {t : Engine} (h : Maintained s log) (ht : t.rest = s.rest) :
    Maintained t log :=
  ⟨h.keeps.of_rest ht, h.keyed.of_rest ht, h.stored.of_rest ht⟩

theorem maintained_ramBegin : Maintained ramBegin [] :=
  ⟨keeps_ramBegin, keyed_ramBegin, fun i a hi => by cases hi⟩

theorem Maintained.insert (h : Maintained s log) {i : Insertion} {p : Pointer}
    (hi : i.insert s = some (s', p)) : Maintained s' (log ++ [(i, p)]) := by
  refine ⟨?_, h.keyed.insert h.keeps.facts hi, h.stored.insert hi⟩
  by_cases hins : i.IsInserted s.size
  · obtain ⟨t, p', ht, hkeeps, -, -⟩ := h.keeps.insert i hins
    obtain ⟨rfl, rfl⟩ := Prod.mk.inj (Option.some.inj (ht.symm.trans hi))
    exact hkeeps
  · rw [h.keeps.insert_eq_none hins] at hi
    cases hi

theorem Maintained.runFrom {is : List Insertion} {log' : Log} (h : Maintained s log)
    (hrun : runFrom s is = some (s', log')) : Maintained s' (log ++ log') := by
  induction is generalizing s log log' with
  | nil =>
      cases hrun
      rwa [List.append_nil]
  | cons i is ih =>
      simp only [Ram.runFrom, Option.bind_eq_bind, Option.bind_eq_some_iff, Option.pure_def,
        Option.some.injEq, Prod.mk.injEq] at hrun
      obtain ⟨⟨s₁, p⟩, hinsert, ⟨s₂, rest⟩, hrest, rfl, rfl⟩ := hrun
      have hall := ih (h.insert hinsert) hrest
      rwa [List.append_assoc] at hall

theorem Maintained.answerable (h : Maintained s log) : Answerable s := h.keeps.answerable h.keyed

/-- What the log says of the clauses of a stored fact. -/
theorem Maintained.hasConditionalClause_iff (h : Maintained s log) (hf : s.facts[a]? = some f) :
    hasConditionalClause s f.pk = some false ↔ log.Unconditional a := by
  have hlt : a < s.size := by
    rw [← h.keeps.facts]
    exact (List.getElem?_eq_some_iff.mp hf).1
  rw [h.keyed a f hf, hasConditionalClause_eq h.keeps hlt, h.stored.unconditional_iff,
    Option.some.injEq, List.any_eq_false]
  simp

/-! ## The answers of a question -/

theorem sublist_candidates : ∃ hints,
    ((candidates settings q m).filterMap id).Sublist (searchInNet settings q m.engine hints) := by
  rw [candidates]
  split
  · exact ⟨[], searchAndFilter_sublist settings q m.engine [] _⟩
  · exact ⟨"no-extra".toList, searchAndFilter_sublist settings q m.engine _ _⟩

/-- The engine in which the variables of the question are replaced. -/
theorem replaced_eq : replaced settings q m = m.engine.updateFacts (firstSearch settings q m).1
    (replaceVariablesInFact (firstSearch settings q m).2) :=
  replaceVariablesInList_eq (searchAndFilter_valid settings q m.engine _ m.bindings).nodup

theorem rest_replaced : (replaced settings q m).rest = m.engine.rest := by
  have hset : ∀ (bs : Bindings) (f : Fact), (replaceVariablesInFact bs f).rest = f.rest :=
    fun bs f => rfl
  rw [replaced_eq]
  exact rest_updateFacts (hset _) _ _

/-- The engine after the question. -/
def afterQuestion (settings : Settings) (q : Question) (m : Memory) : Engine :=
  (m.engine.updateFacts (firstSearch settings q m).1
    (replaceVariablesInFact (firstSearch settings q m).2)).updateFacts (candidates settings q m)
      (settled (simpleResult settings q))

/-- A question, in full. -/
theorem searchFactsSimple_run (h : Answerable m.engine) (hbs : ∀ b ∈ m.bindings, b.Recorded) :
    ∃ bs, (∀ b ∈ bs, b.Recorded) ∧ searchFactsSimple settings q m =
      some ((candidates settings q m).map (Option.filter
        (stays (simpleResult settings q) (replaced settings q m))),
          ⟨afterQuestion settings q m, bs⟩) := by
  obtain ⟨bs, hbs, heq⟩ := @searchFactsSimple_eq settings q m hbs
  have hframe : SameFrame m.engine (replaced settings q m) := sameFrame_of_rest rest_replaced
  have hvalid := @valid_candidates settings q m
  obtain ⟨bs', hbs', hrun⟩ := (decides_reviewVerb settings q).reviewList_eq
    (m := ⟨replaced settings q m, bs⟩) (hframe.answerable h) hvalid.nodup
    (fun a ha => by
      obtain ⟨f, hf⟩ := hvalid.stored a ha
      obtain ⟨g, hg, -⟩ := hframe.stored hf
      exact ⟨g, hg⟩) hbs
  refine ⟨bs', hbs', ?_⟩
  rw [heq, reviewList_eq_by, hrun, afterQuestion, ← replaced_eq]

theorem rest_afterQuestion : (afterQuestion settings q m).rest = m.engine.rest := by
  rw [afterQuestion, ← replaced_eq,
    rest_updateFacts (decides_reviewVerb settings q).rest_settled, rest_replaced]

end Freehal.Ram
