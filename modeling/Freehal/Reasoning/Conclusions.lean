import Freehal.Lib.Fold
import Freehal.Reasoning.Parts
import Freehal.Reasoning.Pattern

/-!
# Drawing conclusions

`FactReasoning.updateConclusions`: the facts with a condition become patterns, these are matched
with the facts that the words of their premises find, and the conclusions are written to a file.
-/

namespace Freehal.Reasoning

open Freehal.Xml (JString jchar jtext)
open Freehal.Lib

/-! ## The file -/

/-- `FreehalFile.append`, which creates a file that does not exist. -/
def append (file : Option JString) (s : JString) : Option JString := some (file.getD [] ++ s)

/-- What is appended for a conclusion. -/
def conclusionLine (conclusion : XmlObj) : JString := conclusion.printXml ++ [jchar '\n']

/-! ## The patterns -/

section

variable (toLowerCase : JString → JString) (database : SynonymProvider) (ord : HashOrder)

/-- `Patterns.filterConsequenceFacts` -/
def filterConsequenceFacts : List XmlObj → Option (List XmlObj)
  | [] => some []
  | xfact :: consequences => do
      let consequence ← isConsequenceFact toLowerCase database xfact
      let filtered ← filterConsequenceFacts consequences
      return if consequence then xfact :: filtered else filtered

/-- The loop over the facts with a condition. -/
def createAllPatterns : List XmlObj → Option (List Pattern)
  | [] => some []
  | xfact :: facts => do
      let created ← (createPatterns toLowerCase database xfact).2
      let patterns ← createAllPatterns facts
      return ord.enum created ++ patterns

/-- The backend gives the facts of a set in the order of its iteration, and new objects for every
search. -/
abbrev FindFacts := List JString → List XmlObj

variable (findFacts : FindFacts)

/-- The steps before the file is deleted. -/
def consequencePatterns : Option (List Pattern) := do
  let inputWords ← (getConsequenceQuestionwords database).getWords
  let filtered ← filterConsequenceFacts toLowerCase database (findFacts inputWords)
  createAllPatterns toLowerCase database ord (ord.enum filtered)

/-! ## The conclusions -/

variable (isIndexWord : JString → Bool)

/-- `TaggerUtils.getIndexWords` -/
def getIndexWords (xfact : XmlObj) : Option (List JString) :=
  xfact.getWords.map fun words => words.filter isIndexWord

/-- The loop over the facts that a premise finds. The file afterwards, and whether nothing was
thrown. -/
def matchFacts (p : Pattern) : List XmlObj → Option JString → Option JString × Bool
  | [], file => (file, true)
  | xfact :: facts, file =>
      match (p.matches xfact).2 with
      | none => (file, false)
      | some none => matchFacts p facts file
      | some (some conclusion) => matchFacts p facts (append file (conclusionLine conclusion))

/-- The loop over the patterns. -/
def matchPatterns : List Pattern → Option JString → Option JString × Bool
  | [], file => (file, true)
  | p :: patterns, file =>
      match getIndexWords isIndexWord p.premise with
      | none => (file, false)
      | some words =>
          let matched := matchFacts p (findFacts words) file
          if matched.2 then matchPatterns patterns matched.1 else matched

/-- The file of conclusions afterwards. It is deleted when the patterns are there. -/
def updateConclusions (file : Option JString) : Option JString × Bool :=
  match consequencePatterns toLowerCase database ord findFacts with
  | none => (file, false)
  | some patterns => matchPatterns findFacts isIndexWord patterns none

end

/-! ## Where the patterns come from -/

section

variable (toLowerCase : JString → JString) (database : SynonymProvider)

/-- A clause with a condition. -/
def becomesPremise (e : XmlObj) : Bool :=
  e.getName = jtext "clause" && isPremise toLowerCase database e = some true

/-- What is left of the objects of a fact without its premises, the clauses at the end. -/
def withoutPremises (embedded : List XmlObj) : XmlObj :=
  let others := embedded.filter (!becomesPremise toLowerCase database ·)
  .list .xmlList (jtext "conclusion")
    (others.filter (·.getName ≠ jtext "clause") ++ others.filter (·.getName = jtext "clause"))

/-- The pattern of a clause. -/
def patternOf (embedded : List XmlObj) (clause : XmlObj) : Pattern :=
  ⟨((clause.setName (jtext "premise")).insertSynonyms database).1,
    withoutPremises toLowerCase database embedded⟩

/-- A clause with a condition in one of some facts makes this pattern. -/
inductive PatternOf (facts : List XmlObj) : Pattern → Prop
  | clause {cls : ListClass} {name : JString} {embedded : List XmlObj} {clause : XmlObj} :
      .list cls name embedded ∈ facts → clause ∈ embedded →
        becomesPremise toLowerCase database clause = true →
          PatternOf facts (patternOf toLowerCase database embedded clause)

end

variable {toLowerCase : JString → JString} {database : SynonymProvider}

/-- What renaming marks, where no clause fails. -/
theorem renamePremises_eq {embedded : List XmlObj}
    (h : (renamePremises toLowerCase database embedded).2 = true) :
    (renamePremises toLowerCase database embedded).1 = embedded.map fun e =>
      (becomesPremise toLowerCase database e,
        if becomesPremise toLowerCase database e then e.setName (jtext "premise") else e) := by
  induction embedded with
  | nil => rfl
  | cons e embedded ih =>
      rw [renamePremises] at h ⊢
      by_cases hname : e.getName = jtext "clause"
      · simp only [hname, if_true] at h ⊢
        cases hpremise : isPremise toLowerCase database e with
        | none => simp [hpremise] at h
        | some premise =>
            simp only [hpremise] at h ⊢
            cases premise <;> simp [ih h, becomesPremise, hname, hpremise]
      · simp only [hname, if_false] at h ⊢
        simp [ih h, becomesPremise, hname]

theorem conclusionOf_renamePremises {embedded : List XmlObj}
    (h : (renamePremises toLowerCase database embedded).2 = true) :
    conclusionOf (renamePremises toLowerCase database embedded).1 =
      withoutPremises toLowerCase database embedded := by
  have hothers : ((embedded.map fun e => (becomesPremise toLowerCase database e,
      if becomesPremise toLowerCase database e then e.setName (jtext "premise") else e)).filter
        (!·.1)).map (·.2) = embedded.filter (!becomesPremise toLowerCase database ·) := by
    clear h
    induction embedded with
    | nil => rfl
    | cons e embedded ih =>
        cases he : becomesPremise toLowerCase database e <;> simp [he, ih]
  rw [renamePremises_eq h, conclusionOf, hothers, withoutPremises]

/-- One pattern for each premise. -/
theorem newPatterns_eq {conclusion : XmlObj} {renamed : List (Bool × XmlObj)}
    {patterns : List Pattern} (h : (newPatterns database conclusion renamed).2 = some patterns) :
    patterns = (renamed.filter (·.1)).map fun d =>
      ⟨(d.2.insertSynonyms database).1, conclusion⟩ := by
  induction renamed generalizing patterns with
  | nil => exact (Option.some.inj h).symm
  | cons d renamed ih =>
      obtain ⟨premise, e⟩ := d
      cases premise with
      | false => exact ih h
      | true =>
          rw [newPatterns] at h
          dsimp only at h
          split at h
          · obtain ⟨made, hmade, rfl⟩ := Option.map_eq_some_iff.mp h
            rw [ih hmade]
            rfl
          · cases h

/-! ## One pattern for each hash code -/

theorem mem_addPattern {patterns : List Pattern} {p q : Pattern} (h : q ∈ addPattern patterns p) :
    q ∈ patterns ∨ q = p := by
  unfold addPattern at h
  split at h
  · exact Or.inl h
  · exact (List.mem_append.mp h).imp_right List.mem_singleton.mp

theorem mem_foldl_addPattern {made patterns : List Pattern} {p : Pattern}
    (h : p ∈ made.foldl addPattern patterns) : p ∈ patterns ∨ p ∈ made := by
  induction made generalizing patterns with
  | nil => exact Or.inl h
  | cons q made ih =>
      rcases ih h with h | h
      · exact (mem_addPattern h).imp_right fun heq => List.mem_cons.mpr (Or.inl heq)
      · exact Or.inr (List.mem_cons_of_mem _ h)

/-- There is a pattern with this hash code. -/
def HasHash (patterns : List Pattern) (hash : BitVec 32) : Prop :=
  ∃ p ∈ patterns, p.hashCode = hash

theorem hasHash_addPattern {patterns : List Pattern} {p : Pattern} {hash : BitVec 32}
    (h : HasHash patterns hash ∨ p.hashCode = hash) : HasHash (addPattern patterns p) hash := by
  unfold addPattern
  split
  · next hany =>
      rcases h with h | rfl
      · exact h
      · obtain ⟨q, hq, hhash⟩ := List.any_eq_true.mp hany
        exact ⟨q, hq, of_decide_eq_true hhash⟩
  · rcases h with ⟨q, hq, hhash⟩ | hhash
    · exact ⟨q, List.mem_append_left _ hq, hhash⟩
    · exact ⟨p, by simp, hhash⟩

/-- A pattern is left out for one with its hash code only. -/
theorem hasHash_foldl_addPattern {made patterns : List Pattern} {hash : BitVec 32}
    (h : HasHash patterns hash ∨ HasHash made hash) :
    HasHash (made.foldl addPattern patterns) hash := by
  induction made generalizing patterns with
  | nil => exact h.resolve_right fun ⟨_, hp, _⟩ => by cases hp
  | cons q made ih =>
      refine ih ?_
      rcases h with h | ⟨p, hp, hhash⟩
      · exact Or.inl (hasHash_addPattern (Or.inl h))
      · rcases List.mem_cons.mp hp with rfl | hp
        · exact Or.inl (hasHash_addPattern (Or.inr hhash))
        · exact Or.inr ⟨p, hp, hhash⟩

/-! ## The patterns of the facts that are found -/

/-- Patterns of some facts and no others, with every hash code that they have. -/
structure PatternsOf (toLowerCase : JString → JString) (database : SynonymProvider)
    (facts : List XmlObj) (patterns : List Pattern) : Prop where
  sound : ∀ p ∈ patterns, PatternOf toLowerCase database facts p
  complete : ∀ p, PatternOf toLowerCase database facts p → HasHash patterns p.hashCode

theorem PatternOf.mono {facts facts' : List XmlObj} {p : Pattern}
    (h : PatternOf toLowerCase database facts p) (hsub : ∀ f ∈ facts, f ∈ facts') :
    PatternOf toLowerCase database facts' p := by
  cases h with
  | clause hmem hclause hpremise => exact .clause (hsub _ hmem) hclause hpremise

theorem PatternOf.of_cons {xfact : XmlObj} {facts : List XmlObj} {p : Pattern}
    (h : PatternOf toLowerCase database (xfact :: facts) p) :
    PatternOf toLowerCase database [xfact] p ∨ PatternOf toLowerCase database facts p := by
  cases h with
  | clause hmem hclause hpremise =>
      rcases List.mem_cons.mp hmem with rfl | hmem
      · exact Or.inl (.clause (List.mem_singleton_self _) hclause hpremise)
      · exact Or.inr (.clause hmem hclause hpremise)

theorem anyPremise_iff {clauses : List XmlObj} {b : Bool}
    (h : anyPremise toLowerCase database clauses = some b) :
    b = true ↔ ∃ clause ∈ clauses, isPremise toLowerCase database clause = some true := by
  induction clauses with
  | nil => cases h; simp
  | cons clause clauses ih =>
      obtain ⟨premise, hpremise, h⟩ := Option.bind_eq_some_iff.mp h
      cases premise with
      | true => cases h; simp [hpremise]
      | false => simp [ih h, hpremise]

/-- A fact has a condition if one of its clauses becomes a premise. -/
theorem isConsequenceFact_iff {xfact : XmlObj} {b : Bool}
    (h : isConsequenceFact toLowerCase database xfact = some b) :
    b = true ↔ ∃ e ∈ xfact.getEmbedded, becomesPremise toLowerCase database e = true := by
  rw [anyPremise_iff h]
  simp [XmlObj.parts, becomesPremise, and_assoc]

theorem PatternOf.singleton_iff {cls : ListClass} {name : JString} {embedded : List XmlObj}
    {p : Pattern} : PatternOf toLowerCase database [.list cls name embedded] p ↔
      ∃ clause ∈ embedded, becomesPremise toLowerCase database clause = true ∧
        patternOf toLowerCase database embedded clause = p := by
  constructor
  · rintro ⟨hmem, hclause, hpremise⟩
    obtain ⟨rfl, rfl, rfl⟩ := XmlObj.list.inj (List.mem_singleton.mp hmem)
    exact ⟨_, hclause, hpremise, rfl⟩
  · rintro ⟨clause, hclause, hpremise, rfl⟩
    exact .clause (List.mem_singleton_self _) hclause hpremise

theorem PatternsOf.createPatterns {xfact : XmlObj} {patterns : List Pattern}
    (h : (createPatterns toLowerCase database xfact).2 = some patterns) :
    PatternsOf toLowerCase database [xfact] patterns := by
  unfold Reasoning.createPatterns at h
  split at h
  · next cls name embedded _ =>
      dsimp only at h
      split at h
      · next hrenamed =>
          obtain ⟨made, hmade, rfl⟩ := Option.map_eq_some_iff.mp h
          have hiff : ∀ p, p ∈ made ↔
              PatternOf toLowerCase database [.list cls name embedded] p := by
            intro p
            rw [newPatterns_eq hmade, conclusionOf_renamePremises hrenamed,
              renamePremises_eq hrenamed, PatternOf.singleton_iff]
            simp only [List.mem_map, List.mem_filter, Prod.exists]
            constructor
            · rintro ⟨premise, e, ⟨⟨clause, hclause, heq⟩, hpremise⟩, rfl⟩
              obtain ⟨rfl, rfl⟩ := Prod.mk.inj heq
              exact ⟨clause, hclause, hpremise, by rw [if_pos hpremise]; rfl⟩
            · rintro ⟨clause, hclause, hpremise, rfl⟩
              exact ⟨_, _, ⟨⟨clause, hclause, rfl⟩, hpremise⟩, by rw [if_pos hpremise]; rfl⟩
          refine ⟨fun p hp => (hiff p).mp ?_, fun p hp => ?_⟩
          · exact (mem_foldl_addPattern hp).resolve_left fun h => by cases h
          · exact hasHash_foldl_addPattern (Or.inr ⟨p, (hiff p).mpr hp, rfl⟩)
      · cases h
  · next b hnot hconsequence =>
      obtain rfl := Option.some.inj h
      refine ⟨fun p hp => (by cases hp), fun p hp => ?_⟩
      cases hp with
      | clause hmem hclause hpremise =>
          obtain rfl := List.mem_singleton.mp hmem
          have hb := (isConsequenceFact_iff hconsequence).mpr ⟨_, hclause, hpremise⟩
          exact (hnot _ _ _ rfl hb).elim
  · cases h

theorem PatternsOf.createAllPatterns {ord : HashOrder} {facts : List XmlObj}
    {patterns : List Pattern}
    (h : createAllPatterns toLowerCase database ord facts = some patterns) :
    PatternsOf toLowerCase database facts patterns := by
  induction facts generalizing patterns with
  | nil =>
      obtain rfl := Option.some.inj h
      exact ⟨fun p hp => (by cases hp), fun p ⟨hmem, _, _⟩ => (by cases hmem)⟩
  | cons xfact facts ih =>
      obtain ⟨created, hcreated, h⟩ := Option.bind_eq_some_iff.mp h
      obtain ⟨rest, hrest, h⟩ := Option.bind_eq_some_iff.mp h
      obtain rfl := Option.some.inj h
      have hfirst := PatternsOf.createPatterns hcreated
      have hothers := ih hrest
      refine ⟨fun p hp => ?_, fun p hp => ?_⟩
      · rcases List.mem_append.mp hp with hp | hp
        · exact (hfirst.sound p (ord.mem_enum.mp hp)).mono (by simp)
        · exact (hothers.sound p hp).mono fun f hf => List.mem_cons_of_mem _ hf
      · rcases hp.of_cons with hp | hp
        · obtain ⟨q, hq, hhash⟩ := hfirst.complete p hp
          exact ⟨q, List.mem_append_left _ (ord.mem_enum.mpr hq), hhash⟩
        · obtain ⟨q, hq, hhash⟩ := hothers.complete p hp
          exact ⟨q, List.mem_append_right _ hq, hhash⟩

/-- The filter keeps the facts that patterns are made of. -/
theorem mem_filterConsequenceFacts {facts filtered : List XmlObj}
    (h : filterConsequenceFacts toLowerCase database facts = some filtered) (f : XmlObj) :
    f ∈ filtered ↔ f ∈ facts ∧ ∃ e ∈ f.getEmbedded,
      becomesPremise toLowerCase database e = true := by
  induction facts generalizing filtered with
  | nil =>
      obtain rfl := Option.some.inj h
      simp
  | cons xfact facts ih =>
      obtain ⟨consequence, hconsequence, h⟩ := Option.bind_eq_some_iff.mp h
      obtain ⟨rest, hrest, h⟩ := Option.bind_eq_some_iff.mp h
      obtain rfl := Option.some.inj h
      have hiff := isConsequenceFact_iff hconsequence
      cases consequence with
      | true =>
          simp only [if_true, List.mem_cons, ih hrest]
          constructor
          · rintro (rfl | ⟨hf, he⟩)
            · exact ⟨Or.inl rfl, hiff.mp rfl⟩
            · exact ⟨Or.inr hf, he⟩
          · rintro ⟨rfl | hf, he⟩
            · exact Or.inl rfl
            · exact Or.inr ⟨hf, he⟩
      | false =>
          simp only [Bool.false_eq_true, if_false, List.mem_cons, ih hrest]
          constructor
          · exact fun ⟨hf, he⟩ => ⟨Or.inr hf, he⟩
          · rintro ⟨rfl | hf, he⟩
            · exact absurd (hiff.mpr he) (by simp)
            · exact ⟨hf, he⟩

theorem PatternsOf.consequencePatterns {ord : HashOrder} {findFacts : FindFacts}
    {patterns : List Pattern}
    (h : consequencePatterns toLowerCase database ord findFacts = some patterns) :
    ∃ inputWords, (getConsequenceQuestionwords database).getWords = some inputWords ∧
      PatternsOf toLowerCase database (findFacts inputWords) patterns := by
  obtain ⟨inputWords, hwords, h⟩ := Option.bind_eq_some_iff.mp h
  obtain ⟨filtered, hfiltered, h⟩ := Option.bind_eq_some_iff.mp h
  have hmem := mem_filterConsequenceFacts hfiltered
  have hall := PatternsOf.createAllPatterns h
  refine ⟨inputWords, hwords, fun p hp => ?_, fun p hp => hall.complete p ?_⟩
  · exact (hall.sound p hp).mono fun f hf => ((hmem f).mp (ord.mem_enum.mp hf)).1
  · cases hp with
    | clause hfact hclause hpremise =>
        refine .clause (ord.mem_enum.mpr ((hmem _).mpr ⟨hfact, ?_⟩)) hclause hpremise
        exact ⟨_, hclause, hpremise⟩

/-! ## The conclusions that are written -/

/-- The lines of some conclusions. No file is written for none. -/
def fileOf : List XmlObj → Option JString
  | [] => none
  | c :: conclusions => some ((c :: conclusions).flatMap conclusionLine)

theorem append_fileOf (conclusions : List XmlObj) (c : XmlObj) :
    append (fileOf conclusions) (conclusionLine c) = fileOf (conclusions ++ [c]) := by
  cases conclusions with
  | nil => simp [append, fileOf]
  | cons d conclusions => simp [append, fileOf]

/-- A pattern draws a conclusion from one of some facts. -/
def DrawnFrom (p : Pattern) (facts : List XmlObj) (c : XmlObj) : Prop :=
  ∃ f ∈ facts, (p.matches f).2 = some (some c)

/-- The conclusions that a run has written: no others than can be drawn, and all of these unless
it was broken off. -/
structure Written (drawn : XmlObj → Prop) (conclusions : List XmlObj) (completed : Bool) :
    Prop where
  sound : ∀ c ∈ conclusions, drawn c
  complete : completed = true → ∀ c, drawn c → c ∈ conclusions

theorem matchFacts_written (p : Pattern) (facts done : List XmlObj) :
    ∃ conclusions, (matchFacts p facts (fileOf done)).1 = fileOf (done ++ conclusions) ∧
      Written (DrawnFrom p facts) conclusions (matchFacts p facts (fileOf done)).2 := by
  induction facts generalizing done with
  | nil =>
      refine ⟨[], by simp [matchFacts], fun c hc => (by cases hc), fun _ c ⟨f, hf, _⟩ => ?_⟩
      cases hf
  | cons xfact facts ih =>
      rw [matchFacts]
      cases hmatches : (p.matches xfact).2 with
      | none => exact ⟨[], by simp, fun c hc => (by cases hc), fun h => (by cases h)⟩
      | some result =>
          cases result with
          | none =>
              obtain ⟨conclusions, hfile, hsound, hcomplete⟩ := ih done
              refine ⟨conclusions, hfile, fun c hc => ?_, fun h c ⟨f, hf, hc⟩ => ?_⟩
              · obtain ⟨f, hf, hc⟩ := hsound c hc
                exact ⟨f, List.mem_cons_of_mem _ hf, hc⟩
              · rcases List.mem_cons.mp hf with rfl | hf
                · rw [hmatches] at hc
                  cases hc
                · exact hcomplete h c ⟨f, hf, hc⟩
          | some conclusion =>
              obtain ⟨conclusions, hfile, hsound, hcomplete⟩ := ih (done ++ [conclusion])
              simp only [append_fileOf]
              refine ⟨conclusion :: conclusions, by simpa using hfile, fun c hc => ?_,
                fun h c ⟨f, hf, hc⟩ => ?_⟩
              · rcases List.mem_cons.mp hc with rfl | hc
                · exact ⟨xfact, List.mem_cons_self, hmatches⟩
                · obtain ⟨f, hf, hc⟩ := hsound c hc
                  exact ⟨f, List.mem_cons_of_mem _ hf, hc⟩
              · rcases List.mem_cons.mp hf with rfl | hf
                · rw [hmatches] at hc
                  exact List.mem_cons.mpr (Or.inl (Option.some.inj (Option.some.inj hc)).symm)
                · exact List.mem_cons_of_mem _ (hcomplete h c ⟨f, hf, hc⟩)

/-- One of some patterns draws a conclusion from a fact that its premise finds. -/
def DrawnBy (findFacts : FindFacts) (isIndexWord : JString → Bool) (patterns : List Pattern)
    (c : XmlObj) : Prop :=
  ∃ p ∈ patterns, ∃ words, getIndexWords isIndexWord p.premise = some words ∧
    DrawnFrom p (findFacts words) c

theorem matchPatterns_written (findFacts : FindFacts) (isIndexWord : JString → Bool)
    (patterns : List Pattern) (done : List XmlObj) :
    ∃ conclusions,
      (matchPatterns findFacts isIndexWord patterns (fileOf done)).1 =
        fileOf (done ++ conclusions) ∧
      Written (DrawnBy findFacts isIndexWord patterns) conclusions
        (matchPatterns findFacts isIndexWord patterns (fileOf done)).2 := by
  induction patterns generalizing done with
  | nil =>
      refine ⟨[], by simp [matchPatterns], fun c hc => (by cases hc), fun _ c ⟨p, hp, _⟩ => ?_⟩
      cases hp
  | cons p patterns ih =>
      rw [matchPatterns]
      cases hwords : getIndexWords isIndexWord p.premise with
      | none => exact ⟨[], by simp, fun c hc => (by cases hc), fun h => (by cases h)⟩
      | some words =>
          obtain ⟨first, hfile, hsound, hcomplete⟩ := matchFacts_written p (findFacts words) done
          have hdrawn : ∀ c ∈ first, DrawnBy findFacts isIndexWord (p :: patterns) c :=
            fun c hc => ⟨p, List.mem_cons_self, words, hwords, hsound c hc⟩
          dsimp only
          cases hcompleted : (matchFacts p (findFacts words) (fileOf done)).2 with
          | false =>
              simp only [Bool.false_eq_true, if_false]
              exact ⟨first, hfile, hdrawn, fun h => absurd (h.symm.trans hcompleted) (by simp)⟩
          | true =>
              obtain ⟨others, hothers, hsound', hcomplete'⟩ := ih (done ++ first)
              simp only [if_true, hfile]
              refine ⟨first ++ others, by simpa using hothers, fun c hc => ?_,
                fun h c ⟨q, hq, words', hwords', hc⟩ => ?_⟩
              · rcases List.mem_append.mp hc with hc | hc
                · exact hdrawn c hc
                · obtain ⟨q, hq, hc⟩ := hsound' c hc
                  exact ⟨q, List.mem_cons_of_mem _ hq, hc⟩
              · rcases List.mem_cons.mp hq with rfl | hq
                · obtain rfl := Option.some.inj (hwords.symm.trans hwords')
                  exact List.mem_append_left _ (hcomplete hcompleted c hc)
                · exact List.mem_append_right _ (hcomplete' h c ⟨q, hq, words', hwords', hc⟩)

end Freehal.Reasoning
