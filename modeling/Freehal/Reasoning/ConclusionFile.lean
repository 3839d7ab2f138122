import Freehal.Reasoning.Conclusions
import Freehal.Reasoning.Printable
import Freehal.Xml.RoundTrip

/-!
# The file of conclusions

What variables are bound to are objects of the texts of a fact. So a conclusion shows the words of a
rule and of a fact, and the file that is written is read as the facts that were concluded.
-/

namespace Freehal.Reasoning

open Freehal.Xml (JString jchar jtext isWordChar XmlTree ReadAll TagName ReadFact readXmlFacts
  rereadFact)
open Freehal.Lib

/-! ## What variables are bound to -/

mutual
/-- What the objects of the texts in a tree have in common. -/
def XmlObj.TextsHold (P : XmlObj → Prop) : XmlObj → Prop
  | .list cls _ embedded => (cls = .xmlText → ∀ e ∈ embedded, P e) ∧ TextsHoldAll P embedded
  | _ => True

def TextsHoldAll (P : XmlObj → Prop) : List XmlObj → Prop
  | [] => True
  | e :: embedded => e.TextsHold P ∧ TextsHoldAll P embedded
end

variable {P : XmlObj → Prop}

theorem textsHoldAll_iff {embedded : List XmlObj} :
    TextsHoldAll P embedded ↔ ∀ e ∈ embedded, e.TextsHold P := by
  induction embedded with
  | nil => simp [TextsHoldAll]
  | cons e embedded ih => simp [TextsHoldAll, ih]

theorem XmlObj.TextsHold.embedded {x : XmlObj} (h : x.TextsHold P) :
    ∀ e ∈ x.getEmbedded, e.TextsHold P := by
  cases x with
  | word text => exact fun e he => by cases he
  | var text after => exact fun e he => by cases he
  | list cls name embedded => exact textsHoldAll_iff.mp h.2

theorem XmlObj.TextsHold.part {x : XmlObj} (h : x.TextsHold P) (tagname : JString) :
    (x.part tagname).TextsHold P := by
  have hparts : ∀ o ∈ x.parts tagname, o.TextsHold P :=
    fun o ho => h.embedded o (List.mem_filter.mp ho).1
  rcases part_cases x tagname with ⟨o, ho, -, hpart⟩ | ⟨-, hpart⟩ | ⟨-, hpart⟩
  · rw [hpart]
    exact hparts o (by simp [ho])
  · rw [hpart]
    exact ⟨fun hcls => (by cases hcls), trivial⟩
  · rw [hpart]
    refine ⟨fun hcls => (by cases hcls), textsHoldAll_iff.mpr fun e he => ?_⟩
    obtain ⟨o, ho, he⟩ := List.mem_flatMap.mp he
    have hhold := hparts o ho
    cases o with
    | word text => exact List.mem_singleton.mp he ▸ hhold
    | var text after => exact List.mem_singleton.mp he ▸ hhold
    | list cls name embedded => exact hhold.embedded e he

theorem bound_put {variablemap : VariableMap} (h : Bound P variablemap) (text : JString)
    {bound : List XmlObj} (hbound : ∀ o ∈ bound, P o) : Bound P (variablemap.put text bound) := by
  intro text' bound' hget
  rw [HashMap.get_put] at hget
  split at hget
  · obtain rfl := Option.some.inj hget
    exact hbound
  · exact h text' bound' hget

mutual
/-- Matching binds variables to objects of the texts of the fact. -/
theorem XmlObj.matches_bound (left : XmlObj) {right : XmlObj} (hright : right.TextsHold P)
    {variablemap : VariableMap} (hmap : Bound P variablemap) {m : Bool × VariableMap}
    (h : left.matches right variablemap = some m) : Bound P m.2 := by
  cases left with
  | word text =>
      obtain rfl := Option.some.inj h
      exact hmap
  | var text after =>
      obtain rfl := Option.some.inj h
      exact hmap
  | list cls name embedded =>
      rw [XmlObj.matches] at h
      split at h
      · next htext =>
          cases right with
          | word text => cases htext.2
          | var text after => cases htext.2
          | list cls' name' inner =>
              obtain rfl : cls' = .xmlText := by cases cls' <;> first | rfl | cases htext.2
              exact matchesTexts_bound embedded (hright.1 rfl) hright.2 hmap h
      · split at h
        · obtain rfl := Option.some.inj h
          exact hmap
        · split at h
          · exact matchesAll_bound embedded hright hmap h
          · exact matchesAny_bound embedded hright hmap h

theorem matchesAll_bound (embedded : List XmlObj) {right : XmlObj} (hright : right.TextsHold P)
    {variablemap : VariableMap} (hmap : Bound P variablemap) {m : Bool × VariableMap}
    (h : matchesAll embedded right variablemap = some m) : Bound P m.2 := by
  cases embedded with
  | nil =>
      obtain rfl := Option.some.inj h
      exact hmap
  | cons e1 embedded =>
      obtain ⟨m', hm, h⟩ := Option.bind_eq_some_iff.mp h
      have hfirst := e1.matches_bound (hright.part e1.getName) hmap hm
      split at h
      · exact matchesAll_bound embedded hright hfirst h
      · obtain rfl := Option.some.inj h
        exact hfirst

theorem matchesAny_bound (embedded : List XmlObj) {right : XmlObj} (hright : right.TextsHold P)
    {variablemap : VariableMap} (hmap : Bound P variablemap) {m : Bool × VariableMap}
    (h : matchesAny embedded right variablemap = some m) : Bound P m.2 := by
  cases embedded with
  | nil =>
      obtain rfl := Option.some.inj h
      exact hmap
  | cons e1 embedded =>
      obtain ⟨m', hm, h⟩ := Option.bind_eq_some_iff.mp h
      have hfirst := e1.matches_bound hright hmap hm
      split at h
      · obtain rfl := Option.some.inj h
        exact hfirst
      · exact matchesAny_bound embedded hright hfirst h

theorem matchesTexts_bound (emb1 : List XmlObj) {emb2 : List XmlObj} (hobjects : ∀ o ∈ emb2, P o)
    (hall : TextsHoldAll P emb2) {k : Nat} {variablemap : VariableMap}
    (hmap : Bound P variablemap) {m : Bool × VariableMap}
    (h : matchesTexts emb1 emb2 k variablemap = some m) : Bound P m.2 := by
  cases emb1 with
  | nil =>
      obtain rfl := Option.some.inj h
      exact hmap
  | cons l emb1 =>
      have htest : ∀ k s m, Bound P s → matchesAt l (fun r vs => l.matches r vs) emb2
          (k % emb2.length) s = some m → Bound P m.2 := by
        intro k s m hs hm
        have hobject : ∀ {m}, (emb2[k % emb2.length]?.bind fun r => l.matches r s) = some m →
            Bound P m.2 := by
          intro m hm
          obtain ⟨r, hr, hm⟩ := Option.bind_eq_some_iff.mp hm
          exact l.matches_bound (textsHoldAll_iff.mp hall r (List.mem_of_getElem? hr)) hs hm
        cases l with
        | var text after =>
            obtain rfl := Option.some.inj hm
            refine bound_put hs text ?_
            rw [variableWords_eq]
            exact fun o ho => hobjects o (List.mem_of_mem_drop ho)
        | word text => exact hobject hm
        | list cls name embedded => exact hobject hm
      obtain ⟨r, hr, h⟩ := Option.bind_eq_some_iff.mp h
      obtain ⟨k', -, h⟩ := Option.bind_eq_some_iff.mp h
      have hsearch := cyclicSearch_induction htest hmap hr
      split at h
      · exact matchesTexts_bound emb1 hobjects hall hsearch h
      · obtain rfl := Option.some.inj h
        exact hsearch
end

theorem textsHold_spelled {o : XmlObj} (h : Spelled o) : o.TextsHold P := by
  obtain ⟨word, -, hone⟩ := h
  cases hone with
  | word => trivial
  | var => trivial
  | synonyms hcls => exact ⟨fun heq => absurd heq hcls, trivial, trivial⟩

mutual
/-- What is printable has nothing but words in its texts. -/
theorem textsHold_printable (o : XmlObj) (h : o.Printable Spelled) : o.TextsHold Spelled := by
  cases o with
  | word text => cases h
  | var text after => cases h
  | list cls name embedded =>
      rw [XmlObj.Printable] at h
      split at h
      · exact ⟨fun _ => h, textsHoldAll_iff.mpr fun e he => textsHold_spelled (h e he)⟩
      · exact ⟨fun heq => absurd heq h.1, textsHoldAll_printable embedded h.2.2.2⟩

theorem textsHoldAll_printable (embedded : List XmlObj) (h : PrintableAll Spelled embedded) :
    TextsHoldAll Spelled embedded := by
  cases embedded with
  | nil => trivial
  | cons e embedded =>
      exact ⟨textsHold_printable e h.1, textsHoldAll_printable embedded h.2⟩
end

/-! ## Conclusions -/

/-- A fact that was read and that is not empty. -/
def FoundFact (f : XmlObj) : Prop :=
  ∃ content, f = ofFact (.list (jtext "fact") content) ∧ ReadAll content ∧ content ≠ []

theorem FoundFact.embedded {f : XmlObj} (h : FoundFact f) :
    ∃ embedded, f = .list .xmlFact (jtext "fact") embedded ∧ embedded ≠ [] ∧
      PrintableAll SpelledWord embedded := by
  obtain ⟨content, rfl, hread, hne⟩ := h
  refine ⟨ofTrees content, rfl, fun hnil => hne ?_, printable_ofTrees content hread⟩
  cases content with
  | nil => rfl
  | cons x content => cases hnil

theorem tagName_word {name : JString} (h : name.all isWordChar = true)
    (htext : name ≠ jtext "text") : TagName name := by
  have hall := List.all_eq_true.mp h
  refine ⟨Xml.spaced_word h, fun hgt => ?_, fun hslash => ?_, htext⟩
  · exact absurd (hall _ hgt) (by decide)
  · exact absurd (hall _ (List.mem_of_mem_head? hslash)) (by decide)

theorem spelled_one : ∀ e ∈ (fromText (jtext "1")).getEmbedded, SpelledWord e :=
  spelledWord_ofWords (by decide)

theorem printable_conclusionMarker : conclusionMarker.Printable Spelled := by
  have hname : jtext "is_conclusion" ≠ jtext "text" := by decide
  rw [conclusionMarker, XmlObj.Printable, if_neg hname]
  refine ⟨by decide, tagName_word (by decide) hname, by simp, ?_, trivial⟩
  rw [fromText, ofWords, XmlObj.Printable, if_pos rfl]
  exact fun e he => (spelled_one e he).1

/-- A fact of its words, with the marker and what it comes from. -/
structure Conclusion (c : XmlObj) : Prop where
  shape : ∃ content, c = .list .xmlList (jtext "fact") content ∧ PrintableAll Spelled content ∧
    conclusionMarker ∈ content

theorem printableAll_append {xs ys : List XmlObj} :
    PrintableAll P (xs ++ ys) ↔ PrintableAll P xs ∧ PrintableAll P ys := by
  simp only [printableAll_iff, List.forall_mem_append]

/-- What a pattern of a rule that was read concludes. -/
theorem conclusion_of_patternOf {toLowerCase : JString → JString} {database : SynonymProvider}
    {rules : List XmlObj} (hrules : ∀ f ∈ rules, FoundFact f) {p : Pattern}
    (hp : PatternOf toLowerCase database rules p) :
    ∃ others, p.conclusion = .list .xmlList (jtext "conclusion") others ∧
      PrintableAll SpelledWord others := by
  cases hp with
  | @clause cls name embedded clause hmem _ _ =>
      obtain ⟨embedded', heq, -, hprintable⟩ := (hrules _ hmem).embedded
      obtain ⟨rfl, rfl, rfl⟩ := XmlObj.list.inj heq
      refine ⟨_, rfl, printableAll_iff.mpr fun e he => ?_⟩
      refine printableAll_iff.mp hprintable e ?_
      rcases List.mem_append.mp he with he | he
      · exact List.mem_of_mem_filter (List.mem_of_mem_filter he)
      · exact List.mem_of_mem_filter (List.mem_of_mem_filter he)

theorem conclusion_of_drawnFrom {p : Pattern} {others : List XmlObj}
    (hconclusion : p.conclusion = .list .xmlList (jtext "conclusion") others)
    (hothers : PrintableAll SpelledWord others) {facts : List XmlObj}
    (hfacts : ∀ f ∈ facts, FoundFact f) {c : XmlObj} (hc : DrawnFrom p facts c) :
    Conclusion c := by
  obtain ⟨f, hf, hmatches⟩ := hc
  obtain ⟨content, rfl, hne, hcontent⟩ := (hfacts f hf).embedded
  have hinserted : ((XmlObj.list .xmlFact (jtext "fact") content).insertSynonyms
      nullSynonymProvider).1 = .list .xmlFact (jtext "fact")
        (insertSynonymsAll nullSynonymProvider content).1 := rfl
  have hfact := printable_insertSynonymsAll content hcontent
  have hnil : (insertSynonymsAll nullSynonymProvider content).1 ≠ [] := by
    obtain ⟨e, rest, rfl⟩ := List.exists_cons_of_ne_nil hne
    rw [insertSynonymsAll]
    split <;> split <;> simp
  rw [Pattern.matches] at hmatches
  simp only [hinserted] at hmatches
  generalize (insertSynonymsAll nullSynonymProvider content).1 = inserted at *
  split at hmatches
  · obtain ⟨m, hm, hmatches⟩ := Option.bind_eq_some_iff.mp hmatches
    split at hmatches
    · obtain rfl := Option.some.inj (Option.some.inj hmatches)
      have hhold : (XmlObj.list .xmlFact (jtext "fact") inserted).TextsHold Spelled :=
        ⟨fun hcls => (by cases hcls), textsHoldAll_printable inserted hfact⟩
      have hmap := p.premise.matches_bound hhold (fun _ _ hget => (by cases hget)) hm
      refine ⟨_, by rw [Pattern.conclude, hconclusion]; rfl, ?_, by simp⟩
      refine printableAll_append.mpr ⟨?_, printable_conclusionMarker, ?_, trivial⟩
      · exact printableAll_insertVariablesAll hmap _ (printableAll_copyAll others hothers)
      · have hname : jtext "origin" ≠ jtext "text" := by decide
        rw [XmlObj.Printable, if_neg hname]
        exact ⟨by decide, tagName_word (by decide) hname, by simpa [addAll] using hnil, by
          simpa [addAll] using hfact⟩
    · cases hmatches
  · cases hmatches

/-! ## Reading the file -/

theorem Conclusion.printXml {c : XmlObj} (h : Conclusion c) :
    c.printXml = c.shown.printXml ∧ ReadFact c.shown := by
  obtain ⟨content, rfl, hprintable, -⟩ := h.shape
  have hname : jtext "fact" ≠ jtext "text" := by decide
  have hsynonyms : jtext "fact" ≠ jtext "synonyms" := by decide
  refine ⟨?_, shownAll content, shown_list _ hname _, PrintableAll.read content hprintable⟩
  rw [shown_list _ hname, XmlTree.printXml, XmlTree.printXmlFrom, XmlObj.printXml,
    XmlObj.printXmlFrom]
  simp only [hname, hsynonyms, if_false, PrintableAll.printEmbedded content hprintable]

/-- The facts of a file, one behind the other, and a line end behind each of them. -/
def factLines (facts : List XmlTree) : JString :=
  facts.flatMap fun x => x.printXml ++ [jchar '\n']

theorem textTokens_blanks_fact {x : XmlTree} (h : ReadFact x) {run : JString}
    (hrun : ∀ c ∈ run, Xml.isBlank c) (rest : JString) :
    Xml.textTokens (run ++ (x.printXml ++ rest)) = Xml.textTokens (x.printXml ++ rest) := by
  obtain ⟨content, rfl, -⟩ := h
  have hname : jtext "fact" ≠ jtext "synonyms" := by decide
  rw [XmlTree.printXml, Xml.printXmlFrom_list 0 0 content hname rest, List.cons_append]
  exact Xml.textTokens_blanks_cons hrun Xml.blank_lt

/-- The line ends between facts are not seen. -/
theorem readFactsLoop_lines {facts : List XmlTree} (h : ∀ x ∈ facts, ReadFact x) {run : JString}
    (hrun : ∀ c ∈ run, Xml.isBlank c) {fuel : Nat}
    (hfuel : (Xml.textTokens (run ++ factLines facts)).length < fuel) :
    Xml.readFactsLoop fuel (Xml.textTokens (run ++ factLines facts)) = facts.map rereadFact := by
  induction facts generalizing run fuel with
  | nil =>
      obtain ⟨fuel, rfl⟩ := Nat.exists_eq_succ_of_ne_zero (show fuel ≠ 0 by omega)
      rw [factLines, List.flatMap_nil, List.append_nil]
      by_cases hnil : run = []
      · subst hnil
        rfl
      · rw [Xml.textTokens_blanks hnil hrun, Xml.readFactsLoop, if_neg (by decide)]
        cases fuel <;> rfl
  | cons x facts ih =>
      obtain ⟨fuel, rfl⟩ := Nat.exists_eq_succ_of_ne_zero (show fuel ≠ 0 by omega)
      have hcons : factLines (x :: facts) =
          x.printXml ++ ([jchar '\n'] ++ factLines facts) := by simp [factLines]
      have hx := h x List.mem_cons_self
      obtain ⟨content, rfl, htokens⟩ := Xml.printXml_fact hx ([jchar '\n'] ++ factLines facts)
      obtain ⟨content', hcontent, -, hread⟩ := hx.flat
      obtain rfl := (XmlTree.list.inj hcontent).2
      have hinner := Xml.readTree_embedded 0 0 (Xml.flatAll content)
        (Xml.Wordy.of_blank (Xml.blank_behind 0)) (Xml.unlinked_flatAll content) hread
        Xml.spaced_fact (by decide) [] ([jchar '\n'] ++ factLines facts)
      rw [hcons, textTokens_blanks_fact hx hrun, htokens] at hfuel ⊢
      generalize Xml.textTokens (Xml.behind 0 ++ (Xml.printEmbedded 0 0 (Xml.flatAll content) ++
        (Xml.closing 0 0 ++ jchar '<' :: (jchar '/' :: jtext "fact" ++ jchar '>' ::
          ([jchar '\n'] ++ factLines facts))))) = lines at hfuel hinner
      have hlen := Xml.readTreeLoop_length (lines.length + 1) (jtext "fact") lines []
      rw [← Xml.readTree, hinner] at hlen
      rw [List.length_cons] at hfuel
      have hline : ∀ c ∈ [jchar '\n'], Xml.isBlank c :=
        fun c hc => List.mem_singleton.mp hc ▸ rfl
      rw [Xml.readFactsLoop, if_pos rfl]
      dsimp only
      rw [hinner, ih (fun y hy => h y (List.mem_cons_of_mem _ hy)) hline
        (by dsimp only at hlen; omega)]
      rfl

theorem readXmlFacts_lines {facts : List XmlTree} (h : ∀ x ∈ facts, ReadFact x) :
    readXmlFacts [factLines facts] = facts.map rereadFact := by
  rw [readXmlFacts, Xml.tokens_single]
  exact @readFactsLoop_lines facts h [] (fun c hc => by cases hc) _ (Nat.lt_succ_self _)

theorem readXmlFacts_fileOf {conclusions : List XmlObj} (h : ∀ c ∈ conclusions, Conclusion c) :
    readXmlFacts (fileOf conclusions).toList = conclusions.map fun c => rereadFact c.shown := by
  cases conclusions with
  | nil => rfl
  | cons c conclusions =>
      have hlines : (c :: conclusions).flatMap conclusionLine =
          factLines ((c :: conclusions).map XmlObj.shown) := by
        rw [factLines, List.flatMap_map]
        exact List.flatMap_congr fun d hd => by rw [conclusionLine, (h d hd).printXml.1]
      rw [fileOf, hlines, Option.toList_some, readXmlFacts_lines, List.map_map]
      · rfl
      · intro x hx
        obtain ⟨d, hd, rfl⟩ := List.mem_map.mp hx
        exact (h d hd).printXml.2

/-! ## The marker -/

/-- A list comes back with what is read of it, if there is something. -/
theorem mem_reread (level secondlevel : Nat) {name : JString} {inner inner' : List XmlTree}
    (hinner : Xml.reread (Xml.innerLevel name level) (Xml.innerSecondlevel name (secondlevel + 1))
      (Xml.behind (Xml.innerSecondlevel name (secondlevel + 1))) inner = inner')
    (hne : inner' ≠ []) (run : JString) {embedded : List XmlTree}
    (hmem : .list name inner ∈ embedded) :
    .list name inner' ∈ Xml.reread level secondlevel run embedded := by
  induction embedded generalizing run with
  | nil => cases hmem
  | cons e embedded ih =>
      cases e with
      | text words =>
          rw [Xml.reread]
          exact ih _ ((List.mem_cons.mp hmem).resolve_left fun heq => by cases heq)
      | list name' inner'' =>
          rw [Xml.reread]
          rcases List.mem_cons.mp hmem with heq | hmem
          · obtain ⟨rfl, rfl⟩ := XmlTree.list.inj heq
            refine List.mem_append_left _ (List.mem_append_right _ ?_)
            rw [hinner, Xml.keep, if_pos (List.length_pos_iff.mpr hne)]
            exact List.mem_singleton_self _
          · exact List.mem_append_right _ (ih _ hmem)

/-- What is read of the marker. -/
def markerTree : XmlTree := .list (jtext "is_conclusion") [.text [jtext "1"]]

theorem shown_conclusionMarker : conclusionMarker.shown = markerTree := rfl

theorem flatAll_eq (embedded : List XmlTree) :
    Xml.flatAll embedded = embedded.map XmlTree.flat := by
  induction embedded with
  | nil => rfl
  | cons e embedded ih => rw [Xml.flatAll, ih, List.map_cons]

/-- Every fact of the file is marked. -/
theorem Conclusion.marked {c : XmlObj} (h : Conclusion c) :
    ∃ content, rereadFact c.shown = .list (jtext "fact") content ∧ markerTree ∈ content := by
  obtain ⟨content, rfl, -, hmarker⟩ := h.shape
  have hname : jtext "fact" ≠ jtext "text" := by decide
  refine ⟨_, by rw [shown_list _ hname, rereadFact], ?_⟩
  have hflat : markerTree.flat = markerTree := by rfl
  have hmem : markerTree ∈ Xml.flatAll (shownAll content) := by
    rw [flatAll_eq, shownAll_eq]
    exact List.mem_map.mpr ⟨markerTree, List.mem_map.mpr ⟨_, hmarker, shown_conclusionMarker⟩,
      hflat⟩
  have hback : Xml.reread 0 1 (Xml.behind 1) [.text [jtext "1"]] = [.text [jtext "1"]] := by
    rw [Xml.reread, Xml.reread]
    refine (Xml.flush_text_iff 0 1 (Xml.blank_behind 1) ?_ (Xml.blank_closing 0 1)
      fun _ => rfl).mpr ⟨by simp, by decide, fun _ => by decide⟩
    exact fun word hword => List.mem_singleton.mp hword ▸ by decide
  have hlevel : Xml.innerLevel (jtext "is_conclusion") 0 = 0 := if_neg (by decide)
  have hsecond : Xml.innerSecondlevel (jtext "is_conclusion") (0 + 1) = 1 := if_neg (by decide)
  exact mem_reread 0 0 (by rw [hlevel, hsecond, hback]) (List.cons_ne_nil _ _) _ hmem

/-! ## A run of the reasoning -/

/-- The backend finds facts that were read, and none that is empty. -/
def FindsRead (findFacts : FindFacts) : Prop := ∀ words, ∀ f ∈ findFacts words, FoundFact f

/-- What a run leaves in the file: the conclusions of the patterns of the rules that were found,
which are read again with their markers. -/
structure Concluded (toLowerCase : JString → JString) (database : SynonymProvider)
    (findFacts : FindFacts) (isIndexWord : JString → Bool) (conclusions : List XmlObj)
    (result : Option JString × Bool) : Prop where
  written : ∃ inputWords patterns,
    (getConsequenceQuestionwords database).getWords = some inputWords ∧
      PatternsOf toLowerCase database (findFacts inputWords) patterns ∧
        Written (DrawnBy findFacts isIndexWord patterns) conclusions result.2
  file : result.1 = fileOf conclusions
  read : readXmlFacts result.1.toList = conclusions.map fun c => rereadFact c.shown
  marked : ∀ x ∈ readXmlFacts result.1.toList,
    ∃ content, x = .list (jtext "fact") content ∧ markerTree ∈ content

/-- The file is left as it is if the patterns fail. Otherwise it has the conclusions of the rules
that were found, and is read as these. -/
theorem updateConclusions_concluded (toLowerCase : JString → JString)
    (database : SynonymProvider) (ord : HashOrder) {findFacts : FindFacts}
    (hread : FindsRead findFacts) (isIndexWord : JString → Bool) (file : Option JString) :
    (consequencePatterns toLowerCase database ord findFacts = none ∧
        updateConclusions toLowerCase database ord findFacts isIndexWord file = (file, false)) ∨
      ∃ conclusions, Concluded toLowerCase database findFacts isIndexWord conclusions
        (updateConclusions toLowerCase database ord findFacts isIndexWord file) := by
  rw [updateConclusions]
  cases hpatterns : consequencePatterns toLowerCase database ord findFacts with
  | none => exact Or.inl ⟨rfl, rfl⟩
  | some patterns =>
      obtain ⟨inputWords, hwords, hall⟩ := PatternsOf.consequencePatterns hpatterns
      obtain ⟨conclusions, hfile, hwritten⟩ :=
        matchPatterns_written findFacts isIndexWord patterns []
      have hconclusion : ∀ c ∈ conclusions, Conclusion c := by
        intro c hc
        obtain ⟨p, hp, words, -, hdrawn⟩ := hwritten.sound c hc
        obtain ⟨others, hothers, hprintable⟩ :=
          conclusion_of_patternOf (hread inputWords) (hall.sound p hp)
        exact conclusion_of_drawnFrom hothers hprintable (hread words) hdrawn
      have hback := readXmlFacts_fileOf hconclusion
      refine Or.inr ⟨conclusions, ⟨inputWords, patterns, hwords, hall, hwritten⟩, hfile, ?_, ?_⟩
      · exact hfile ▸ hback
      · intro x hx
        have hx : x ∈ readXmlFacts (fileOf conclusions).toList := hfile ▸ hx
        rw [hback] at hx
        obtain ⟨c, hc, rfl⟩ := List.mem_map.mp hx
        exact (hconclusion c hc).marked

/-- A subject of one word. -/
def subjectTree (word : String) : XmlTree := .list (jtext "subject") [.text [jtext word]]

/-- A rule, and a fact that its premise matches. -/
def ruleContents : List (List XmlTree) :=
  [[subjectTree "mortals", .list (jtext "clause")
      [.list (jtext "questionword") [.text [jtext "if"]], subjectTree "$x$"]],
    [subjectTree "anna"]]

def ruleFacts : FindFacts := fun _ => ruleContents.map fun content =>
  ofFact (.list (jtext "fact") content)

theorem findsRead_ruleFacts : FindsRead ruleFacts := by
  have htext : ∀ word, (jtext word).all isWordChar = true → (XmlTree.text [jtext word]).Read :=
    fun word hword w hw => List.mem_singleton.mp hw ▸ hword
  have hsubject : ∀ word, (jtext word).all isWordChar = true → (subjectTree word).Read :=
    fun word hword => ⟨tagName_word (by decide) (by decide), by simp, htext word hword, trivial⟩
  have hquestion : (XmlTree.list (jtext "questionword") [.text [jtext "if"]]).Read :=
    ⟨tagName_word (by decide) (by decide), by simp, htext "if" (by decide), trivial⟩
  intro words f hf
  obtain ⟨content, hcontent, rfl⟩ := List.mem_map.mp hf
  refine ⟨content, rfl, ?_⟩
  rcases List.mem_cons.mp hcontent with rfl | hcontent
  · refine ⟨⟨hsubject _ (by decide), ⟨tagName_word (by decide) (by decide), by simp, hquestion,
      hsubject _ (by decide), trivial⟩, trivial⟩, by simp⟩
  · obtain rfl := List.mem_singleton.mp hcontent
    exact ⟨⟨hsubject _ (by decide), trivial⟩, by simp⟩

theorem updateConclusions_concluded_rule :
    (consequencePatterns id nullSynonymProvider .insertion ruleFacts = none ∧
        updateConclusions id nullSynonymProvider .insertion ruleFacts (fun _ => true) none =
          (none, false)) ∨
      ∃ conclusions, Concluded id nullSynonymProvider ruleFacts (fun _ => true) conclusions
        (updateConclusions id nullSynonymProvider .insertion ruleFacts (fun _ => true) none) :=
  updateConclusions_concluded id nullSynonymProvider .insertion findsRead_ruleFacts
    (fun _ => true) none

end Freehal.Reasoning
