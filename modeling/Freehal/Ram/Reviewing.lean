import Freehal.Ram.Replacing

/-!
# Reviewing the answers

The loop of `search_facts_simple` over the facts that were found. It sets the verbs of a fact to
`equal`, and no other field of any fact.
-/

namespace Freehal.Ram

open Universal (Word Level Bindings Binding Matcher isAEqualVerb isAFactVerb
  factMatchesEntityByEntity_related factMatchesEntityByEntity_records)
open Disk (divideWords)
open Lib (Block Related Adds)

variable {s : Engine} {a : Nat} {f : Fact}

/-! ## Reviewing the answers -/

section

variable {settings : Settings} {q : Question}

/-- The verbs of the fact become `equal` when it is an answer. -/
structure Rewrites (settings : Settings) (q : Question) (f : Fact) : Prop where
  verbs : q.verbs ≠ []
  equal : f.verbs.head?.any (fun verb => isAEqualVerb verb.name) = true
  file : ((comesFromOtherFile settings q f).run []).1 = false

theorem isAFactVerb_of_isAEqualVerb {name : Str} (h : isAEqualVerb name = true) :
    isAFactVerb name = true := by
  simp only [isAEqualVerb, Bool.or_eq_true] at h
  simp only [isAFactVerb, List.any_cons, List.any_nil, Bool.or_eq_true]
  tauto

theorem isAboutSubjects_relaxes : Lib.Relaxes (isAboutSubjects settings q f)
    (isAboutSubjects settings q f) := by
  refine (factMatchesEntityByEntity_related settings.config f.objects _
    (Level.Relaxed.refl .exact)).map _ _ fun r r' h hr => ?_
  have hb := h.bound
  have hne : r ≠ 0 := of_decide_eq_true hr
  refine decide_eq_true fun hzero => ?_
  by_cases hpos : 0 < r
  · have := h.pos hpos
    omega
  · have := h.unknown.mp (by omega)
    omega

theorem comesFromOtherFile_related :
    Related Eq (comesFromOtherFile settings q f) (comesFromOtherFile settings q f) := by
  have const : ∀ b : Bool, Lib.Relaxes (σ := Bindings) (pure b) (pure b) :=
    fun b => Related.pure id
  have about : ∀ b : Bool, Lib.Relaxes (pure b <&&> isAboutSubjects settings q f)
      (pure b <&&> isAboutSubjects settings q f) :=
    fun b => (const b).and isAboutSubjects_relaxes
  exact Lib.Relaxes.eq ((const _).or ((const _).or ((about _).or (about _))))

theorem isAboutSubjects_records : Adds Binding.Recorded (isAboutSubjects settings q f) :=
  (factMatchesEntityByEntity_records f.objects _ .exact).map _

theorem comesFromOtherFile_records : Adds Binding.Recorded (comesFromOtherFile settings q f) := by
  have about := @isAboutSubjects_records f settings q
  exact (Adds.pure _).or ((Adds.pure _).or (((Adds.pure _).and about).or ((Adds.pure _).and about)))

theorem reviewVerb_records : Adds Binding.Recorded (reviewVerb settings q f) := by
  unfold reviewVerb
  split
  · exact Adds.pure _
  split
  · refine comesFromOtherFile_records.bind fun other => ?_
    split
    · exact Adds.pure _
    split
    · exact Adds.pure _
    · exact Adds.pure _
  · exact Adds.pure _

theorem reviewVerb_related : Related Eq (reviewVerb settings q f) (reviewVerb settings q f) := by
  unfold reviewVerb
  split
  · exact Related.pure rfl
  split
  · exact comesFromOtherFile_related.bind fun other other' h => by
      subst h
      split
      · exact Related.pure rfl
      split
      · exact Related.pure rfl
      · exact Related.pure rfl
  · exact Related.pure rfl

/-- The verbs are read, and what comes from another file is no answer. -/
theorem reviewVerb_run {verb : Word} {rest : List Word} (hverbs : f.verbs = verb :: rest)
    (hfact : isAFactVerb verb.name = true ∧ q.verbs ≠ []) (bs : Bindings) :
    ((reviewVerb settings q f).run bs).1 =
      if ((comesFromOtherFile settings q f).run []).1 then none
      else if isAEqualVerb verb.name then some { f with verbs := divideWords "equal".toList }
      else some f := by
  rw [← @comesFromOtherFile_related f settings q bs []]
  let rewritten : Fact := { f with verbs := divideWords "equal".toList }
  have hif : ∀ (other : Bool) (state : Bindings),
      (StateT.run (if other = true then pure none
        else if isAEqualVerb verb.name = true then pure (some rewritten)
        else pure (some f) : Matcher (Option Fact)) state).1 =
      if other = true then none
      else if isAEqualVerb verb.name = true then some rewritten
      else some f := by
    intro other state
    split
    · rfl
    split
    · rfl
    · rfl
  simp only [reviewVerb, hverbs, if_pos hfact, StateT.run_bind]
  exact hif _ _

/-- What becomes of a fact whose verbs do not stay, and of one whose verbs stay. -/
theorem reviewVerb_cases (bs : Bindings) :
    (Rewrites settings q f ∧
      ((reviewVerb settings q f).run bs).1 = some { f with verbs := divideWords "equal".toList }) ∨
    (¬Rewrites settings q f ∧
      ∀ g, ((reviewVerb settings q f).run bs).1 = some g → g = f) := by
  cases hverbs : f.verbs with
  | nil =>
      refine Or.inr ⟨fun h => ?_, fun g hg => ?_⟩
      · have hequal := h.equal
        rw [hverbs] at hequal
        cases hequal
      · simp only [reviewVerb, hverbs] at hg
        exact (Option.some.inj hg).symm
  | cons verb rest =>
      by_cases hfact : isAFactVerb verb.name = true ∧ q.verbs ≠ []
      · have hrun := @reviewVerb_run f settings q verb rest hverbs hfact bs
        by_cases hfile : ((comesFromOtherFile settings q f).run []).1 = true
        · rw [if_pos hfile] at hrun
          refine Or.inr ⟨fun h => absurd hfile (by rw [h.file]; simp), fun g hg => ?_⟩
          rw [hrun] at hg
          cases hg
        · rw [if_neg hfile] at hrun
          by_cases hequal : isAEqualVerb verb.name = true
          · rw [if_pos hequal] at hrun
            exact Or.inl ⟨⟨hfact.2, by rw [hverbs]; exact hequal, by simpa using hfile⟩, hrun⟩
          · rw [if_neg hequal] at hrun
            refine Or.inr ⟨fun h => hequal ?_, fun g hg => ?_⟩
            · have hhead := h.equal
              rw [hverbs] at hhead
              exact hhead
            · rw [hrun] at hg
              exact (Option.some.inj hg).symm
      · refine Or.inr ⟨fun h => hfact ⟨?_, h.verbs⟩, fun g hg => ?_⟩
        · have hhead := h.equal
          rw [hverbs] at hhead
          exact isAFactVerb_of_isAEqualVerb hhead
        · simp only [reviewVerb, hverbs, if_neg hfact] at hg
          exact (Option.some.inj hg).symm

theorem exists_hasConditionalClause {found : Option (Block Pointer)} {pk : Int}
    (h : ramSearchClauses pk s = some found) : ∃ c, hasConditionalClause s pk = some c := by
  cases found with
  | none => exact ⟨false, by rw [hasConditionalClause, h]; rfl⟩
  | some clauses => exact ⟨_, by rw [hasConditionalClause, h]; rfl⟩

def Fact.withEqual (f : Fact) : Fact := { f with verbs := divideWords "equal".toList }

theorem not_isAEqualVerb_equal :
    ¬(divideWords "equal".toList).head?.any (fun verb => isAEqualVerb verb.name) = true := by
  decide

/-- One round: the verbs of the fact are another array, or no fact is another one. -/
theorem reviewFact_spec {m : Memory} (h : Answerable m.engine) (hf : m.engine.facts[a]? = some f)
    (hbs : ∀ b ∈ m.bindings, b.Recorded) :
    ∃ p m', reviewFact settings q a m = some (p, m') ∧ (∀ b ∈ m'.bindings, b.Recorded) ∧
      ((Rewrites settings q f ∧
          m'.engine = m.engine.modifyFact a Fact.withEqual)
        ∨ (¬Rewrites settings q f ∧ m'.engine = m.engine)) := by
  have hrecords := (@reviewVerb_records f settings q).forall hbs
  have hcases := @reviewVerb_cases f settings q m.bindings
  cases hrun : ((reviewVerb settings q f).run m.bindings).1 with
  | none =>
      refine ⟨none, ⟨m.engine, ((reviewVerb settings q f).run m.bindings).2⟩, ?_, hrecords, ?_⟩
      · simp only [reviewFact, hf, Option.bind_eq_bind, Option.bind_some, hrun, Option.pure_def]
      · rcases hcases with ⟨-, hsome⟩ | ⟨hnot, -⟩
        · rw [hrun] at hsome
          cases hsome
        · exact Or.inr ⟨hnot, rfl⟩
  | some g =>
      have hframe : SameFrame m.engine (m.engine.modifyFact a fun _ => g) := by
        apply SameFrame.modifyFact
        intro f' hf'
        obtain rfl := Option.some.inj (hf.symm.trans hf')
        rcases hcases with ⟨-, hsome⟩ | ⟨-, hsame⟩
        · rw [hrun] at hsome
          rw [Option.some.inj hsome]
          rfl
        · rw [hsame g hrun]
      have hg : (m.engine.modifyFact a fun _ => g).facts[a]? = some g := by
        rw [facts_modifyFact, if_pos rfl, hf]
        rfl
      obtain ⟨found, hfound⟩ := hframe.answerable h a g hg
      obtain ⟨c, hc⟩ := exists_hasConditionalClause hfound
      refine ⟨if c then none else some a, ⟨m.engine.modifyFact a fun _ => g, _⟩, ?_, hrecords, ?_⟩
      · simp only [reviewFact, hf, Option.bind_eq_bind, Option.bind_some, hrun, hc, Option.pure_def]
      · rcases hcases with ⟨hrewrites, hsome⟩ | ⟨hnot, hsame⟩
        · rw [hrun] at hsome
          refine Or.inl ⟨hrewrites, modifyFact_congr fun f' hf' => ?_⟩
          obtain rfl := Option.some.inj (hf.symm.trans hf')
          exact Option.some.inj hsome
        · refine Or.inr ⟨hnot, modifyFact_eq_self_iff.mpr fun f' hf' => ?_⟩
          obtain rfl := Option.some.inj (hf.symm.trans hf')
          exact hsame g hrun

/-- The fact has a verb that stands for `equal`. -/
def HasEqualVerb (s : Engine) (a : Nat) : Prop :=
  ∃ f, s.facts[a]? = some f ∧ f.verbs.head?.any (fun verb => isAEqualVerb verb.name) = true

/-- What holds of the loop over any answers. -/
structure Reviewed (settings : Settings) (q : Question) (list : List Pointer) (m m' : Memory) :
    Prop where
  recorded : ∀ b ∈ m'.bindings, b.Recorded
  lists : ∀ a, m'.engine.listsAt a = m.engine.listsAt a
  equal : ∀ a, HasEqualVerb m'.engine a → HasEqualVerb m.engine a
  same : m'.engine = m.engine ↔
    ∀ a f, some a ∈ list → m.engine.facts[a]? = some f → ¬Rewrites settings q f

/-- A round in which the verbs of the fact became others. -/
theorem Reviewed.of_rewritten {list : List Pointer} {m m₁ m' : Memory}
    (hf : m.engine.facts[a]? = some f) (hrewrites : Rewrites settings q f)
    (hengine : m₁.engine = m.engine.modifyFact a Fact.withEqual)
    (h : Reviewed settings q list m₁ m') : Reviewed settings q (some a :: list) m m' := by
  have hhas : HasEqualVerb m.engine a := ⟨f, hf, hrewrites.equal⟩
  have hno : ¬HasEqualVerb m₁.engine a := by
    rintro ⟨g, hg, hequal⟩
    rw [hengine, facts_modifyFact, if_pos rfl, hf] at hg
    obtain rfl := Option.some.inj hg
    exact absurd hequal not_isAEqualVerb_equal
  have hback : ∀ b, HasEqualVerb m₁.engine b → HasEqualVerb m.engine b := by
    intro b hb
    by_cases hab : a = b
    · exact hab ▸ hhas
    · obtain ⟨g, hg, hequal⟩ := hb
      rw [hengine, facts_modifyFact, if_neg hab] at hg
      exact ⟨g, hg, hequal⟩
  refine ⟨h.recorded, fun b => ?_, fun b hb => hback b (h.equal b hb), ?_⟩
  · rw [h.lists, hengine]
    exact listsAt_modifyFact fun f => rfl
  · refine iff_of_false (fun heq => ?_) fun hkeep => hkeep a f List.mem_cons_self hf hrewrites
    exact hno (h.equal a (heq ▸ hhas))

/-- A round in which the fact stayed as it was. -/
theorem Reviewed.of_kept {list : List Pointer} {m m₁ m' : Memory}
    (hf : m.engine.facts[a]? = some f) (hnot : ¬Rewrites settings q f)
    (hengine : m₁.engine = m.engine) (h : Reviewed settings q list m₁ m') :
    Reviewed settings q (some a :: list) m m' := by
  refine ⟨h.recorded, hengine ▸ h.lists, hengine ▸ h.equal, ?_⟩
  rw [← hengine, h.same]
  refine ⟨fun hrest b g hb hg => ?_, fun hrest b g hb => hrest b g (by simp [hb])⟩
  rcases List.mem_cons.mp hb with heq | hb
  · obtain rfl := Option.some.inj heq
    rw [hengine] at hg
    obtain rfl := Option.some.inj (hf.symm.trans hg)
    exact hnot
  · exact hrest b g hb hg

theorem reviewList_spec {list : List Pointer} {m : Memory} (h : Answerable m.engine)
    (hlist : ∀ a, some a ∈ list → ∃ f, m.engine.facts[a]? = some f)
    (hbs : ∀ b ∈ m.bindings, b.Recorded) :
    ∃ answers m', reviewList settings q list m = some (answers, m') ∧
      Reviewed settings q list m m' := by
  induction list generalizing m with
  | nil => exact ⟨[], m, rfl, hbs, fun _ => rfl, fun _ h => h, by simp⟩
  | cons p list ih =>
      cases p with
      | none =>
          obtain ⟨answers, m', hrun, hall⟩ := ih h (fun a ha => hlist a (by simp [ha])) hbs
          refine ⟨none :: answers, m', ?_, hall.recorded, hall.lists, hall.equal, ?_⟩
          · simp only [reviewList, hrun, Option.bind_eq_bind, Option.bind_some, Option.pure_def]
          · simpa using hall.same
      | some a =>
          obtain ⟨f, hf⟩ := hlist a List.mem_cons_self
          obtain ⟨first, m₁, hfirst, hbs₁, hcases⟩ := @reviewFact_spec a f settings q m h hf hbs
          have hframe : SameFrame m.engine m₁.engine := by
            rcases hcases with ⟨-, hengine⟩ | ⟨-, hengine⟩
            · rw [hengine]
              exact SameFrame.modifyFact fun f _ => rfl
            · rw [hengine]
              exact SameFrame.refl _
          have hlist₁ : ∀ b, some b ∈ list → ∃ f, m₁.engine.facts[b]? = some f := by
            intro b hb
            obtain ⟨g, hg⟩ := hlist b (List.mem_cons_of_mem _ hb)
            obtain ⟨g', hg', -⟩ := hframe.stored hg
            exact ⟨g', hg'⟩
          obtain ⟨answers, m', hrun, hall⟩ := ih (hframe.answerable h) hlist₁ hbs₁
          refine ⟨first :: answers, m', ?_, ?_⟩
          · simp only [reviewList, hfirst, hrun, Option.bind_eq_bind, Option.bind_some,
              Option.pure_def]
          · rcases hcases with ⟨hrewrites, hengine⟩ | ⟨hnot, hengine⟩
            · exact hall.of_rewritten hf hrewrites hengine
            · exact hall.of_kept hf hnot hengine

/-! ## What is recorded does not matter -/

/-- What a program gives but for the bindings. -/
def outcome {α : Type} (r : Option (α × Memory)) : Option (α × Engine) :=
  r.map fun r => (r.1, r.2.engine)

theorem reviewFact_outcome (a : Nat) (s : Engine) (bs bs' : Bindings) :
    outcome (reviewFact settings q a ⟨s, bs⟩) = outcome (reviewFact settings q a ⟨s, bs'⟩) := by
  cases hf : s.facts[a]? with
  | none => simp [reviewFact, hf, outcome]
  | some f =>
      have hrelated := @reviewVerb_related f settings q bs bs'
      simp only [reviewFact, hf, Option.bind_eq_bind, Option.bind_some, hrelated]
      cases ((reviewVerb settings q f).run bs').1 with
      | none => rfl
      | some g =>
          dsimp only
          cases hasConditionalClause (s.modifyFact a fun _ => g) g.pk with
          | none => rfl
          | some c => rfl

theorem outcome_bind {α β : Type} {x x' : Option (α × Memory)}
    {next : α × Memory → Option (β × Memory)} (h : outcome x = outcome x')
    (hnext : ∀ r s bs bs', outcome (next (r, ⟨s, bs⟩)) = outcome (next (r, ⟨s, bs'⟩))) :
    outcome (x.bind next) = outcome (x'.bind next) := by
  cases hx : x with
  | none =>
      rw [hx] at h
      rw [Option.map_eq_none_iff.mp h.symm]
  | some r =>
      rw [hx] at h
      obtain ⟨⟨r', ⟨s', bs'⟩⟩, hx', heq⟩ := Option.map_eq_some_iff.mp h.symm
      obtain ⟨r, ⟨s, bs⟩⟩ := r
      obtain ⟨rfl, rfl⟩ := Prod.mk.inj heq
      rw [hx']
      exact hnext _ _ bs bs'

theorem reviewList_outcome (list : List Pointer) (s : Engine) (bs bs' : Bindings) :
    outcome (reviewList settings q list ⟨s, bs⟩) =
      outcome (reviewList settings q list ⟨s, bs'⟩) := by
  induction list generalizing s bs bs' with
  | nil => rfl
  | cons p list ih =>
      cases p with
      | none => exact outcome_bind (ih s bs bs') fun _ _ _ _ => rfl
      | some a =>
          exact outcome_bind (reviewFact_outcome a s bs bs') fun first t cs cs' =>
            outcome_bind (ih t cs cs') fun _ _ _ _ => rfl

end

end Freehal.Ram
