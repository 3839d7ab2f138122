import Freehal.Reasoning.Trees

/-!
# Where matching returns

A premise that is matched with a fact fails only at a text without words, and before that, when the
fact gets its synonyms, at a word that is none.
-/

namespace Freehal.Reasoning

open Freehal.Xml (JString jtext XmlTree ReadAll ReadFact readXmlFacts)
open Freehal.Lib

/-! ## Facts with their synonyms -/

/-- A word of which `getWord` makes nothing: it is empty, or it is the text of a printed word. -/
def failingWord (word : JString) : Bool :=
  !findVariable word && (word.length = 0 || word.tails.any (jtext "\x7bword=").isPrefixOf)

mutual
def failing : XmlTree → Bool
  | .text words => words.any failingWord
  | .list _ embedded => failingAll embedded

def failingAll : List XmlTree → Bool
  | [] => false
  | e :: embedded => failing e || failingAll embedded
end

theorem getWord_eq_none (word : JString) : getWord word = none ↔
    (word.length = 0 ∨ word.tails.any (jtext "\x7bword=").isPrefixOf = true) := by
  by_cases hlen : word.length > 0
  · have hne : word ≠ [] := List.ne_nil_of_length_pos hlen
    by_cases hprinted : word.tails.any (jtext "\x7bword=").isPrefixOf = true
    · simp [getWord, wordOf, newWord, hlen, hprinted]
    · simp [getWord, wordOf, newWord, hlen, hprinted, hne]
  · obtain rfl : word = [] := List.length_eq_zero_iff.mp (by omega)
    simp [getWord, wordOf]

variable {database : SynonymProvider}

theorem toInsert_ofWord (after : List Nat) (word : JString) :
    toInsert database ((ofWord word).setAfter after) = none ↔ failingWord word = true := by
  by_cases hvar : findVariable word = true
  · simp [ofWord, hvar, XmlObj.setAfter, toInsert, failingWord]
  · simp only [ofWord, hvar, Bool.false_eq_true, if_false, XmlObj.setAfter, toInsert,
      Option.map_eq_none_iff, getWord_eq_none]
    simp [failingWord, hvar]

/-- A text gets its synonyms unless one of its words fails. -/
theorem insertText_ofWords (words : List JString) :
    (insertText database (ofWords words)).2 = !words.any failingWord ∧
      (words.any failingWord = false →
        Shows (.text words) (insertText database (ofWords words)).1) := by
  have hnone : (setAfters (words.map ofWord)).mapM (toInsert database) = none ↔
      words.any failingWord = true := by
    rw [mapM_eq_none_iff, List.any_eq_true]
    constructor
    · rintro ⟨o, ho, hnone⟩
      obtain ⟨i, hi, rfl⟩ := List.mem_mapIdx.mp ho
      rw [List.getElem_map, toInsert_ofWord] at hnone
      exact ⟨_, List.getElem_mem _, hnone⟩
    · rintro ⟨word, hword, hfails⟩
      obtain ⟨i, hi, rfl⟩ := List.mem_iff_getElem.mp hword
      refine ⟨_, List.mem_mapIdx.mpr ⟨i, by simpa using hi, rfl⟩, ?_⟩
      rw [List.getElem_map, toInsert_ofWord]
      exact hfails
  cases hm : (setAfters (words.map ofWord)).mapM (toInsert database) with
  | none =>
      have hfails := hnone.mp hm
      rw [ofWords]
      simp [insertText, hm, hfails]
  | some inserted =>
      have hfails : words.any failingWord = false := by
        rw [← Bool.not_eq_true, ← hnone, hm]
        exact Option.some_ne_none inserted
      have hobjects := insertText_textObjects database (ofWords_textObjects words)
      rw [ofWords] at hobjects ⊢
      simp only [insertText, hm, hfails, Bool.not_false, true_and] at hobjects ⊢
      refine fun _ => ⟨_, rfl, ?_, hobjects⟩
      have hlen := (mapM_eq_some_iff.mp hm).length_eq
      rw [← List.length_eq_zero_iff, ← List.length_eq_zero_iff]
      simp only [setAfters, List.length_mapIdx, List.length_map] at hlen ⊢
      omega

mutual
theorem insertSynonyms_ofTree (x : XmlTree) :
    (if (ofTree x).isText then insertText database (ofTree x)
        else (ofTree x).insertSynonyms database).2 = !failing x ∧
      (failing x = false → Shows x (if (ofTree x).isText then insertText database (ofTree x)
        else (ofTree x).insertSynonyms database).1) := by
  cases x with
  | text words => exact insertText_ofWords words
  | list name embedded =>
      obtain ⟨hflag, hshows⟩ := insertSynonymsAll_ofTrees embedded
      have hcls : ListClass.xmlList ≠ .xmlSynonyms := by decide
      simp only [ofTree, XmlObj.isText, XmlObj.insertSynonyms, if_neg hcls, failing]
      exact ⟨hflag, fun h => ⟨_, _, rfl, by decide, hshows h⟩⟩

theorem insertSynonymsAll_ofTrees (trees : List XmlTree) :
    (insertSynonymsAll database (ofTrees trees)).2 = !failingAll trees ∧
      (failingAll trees = false →
        ShowsAll trees (insertSynonymsAll database (ofTrees trees)).1) := by
  cases trees with
  | nil => exact ⟨rfl, fun _ => rfl⟩
  | cons x trees =>
      obtain ⟨hx, hshows⟩ := insertSynonyms_ofTree x
      obtain ⟨hrest, hshowsAll⟩ := insertSynonymsAll_ofTrees trees
      rw [ofTrees, insertSynonymsAll, failingAll]
      cases hfails : failing x with
      | true =>
          rw [hfails] at hx
          simp [hx]
      | false =>
          rw [hfails] at hx
          simp only [hx, Bool.not_false, if_true, Bool.false_or]
          exact ⟨hrest, fun h => ⟨_, _, rfl, hshows hfails, hshowsAll h⟩⟩
end

/-! ## A premise for every empty text -/

theorem not_reached_nil {trees : List XmlTree} (h : EmptyTextReached trees) : trees ≠ [] := by
  induction h with
  | here h =>
      rintro rfl
      cases h
  | part _ _ ih =>
      rintro rfl
      exact ih rfl

theorem contentOf_text {trees : List XmlTree} (h : ReadAll trees) :
    contentOf (jtext "text") trees = [] := by
  induction trees with
  | nil => rfl
  | cons x trees ih =>
      rw [contentOf, List.flatMap_cons]
      have hrest := ih h.2
      rw [contentOf] at hrest
      cases x with
      | text words => simpa using hrest
      | list name inner => simpa [h.1.1.text] using hrest

theorem insertSynonymsAll_cons {e e' : XmlObj} {embedded inserted : List XmlObj}
    (he : insertSynonymsAll database [e] = ([e'], true))
    (h : insertSynonymsAll database embedded = (inserted, true)) :
    insertSynonymsAll database (e :: embedded) = (e' :: inserted, true) := by
  rw [insertSynonymsAll] at he ⊢
  generalize (if e.isText then insertText database e else e.insertSynonyms database) = r at he ⊢
  obtain ⟨x, ok⟩ := r
  cases ok with
  | false => simp at he
  | true => simpa [insertSynonymsAll, h] using he

theorem insertSynonymsAll_list {embedded inserted : List XmlObj} (tagname : JString)
    (h : insertSynonymsAll database embedded = (inserted, true)) :
    insertSynonymsAll database [.list .xmlList tagname embedded] =
      ([.list .xmlList tagname inserted], true) := by
  simp [insertSynonymsAll, XmlObj.isText, XmlObj.insertSynonyms, h]

variable {tagname : JString} {embedded : List XmlObj} {right part : XmlObj}
  {variablemap : VariableMap}

theorem matchesAll_ignored (htag : isIgnoredTree tagname = true) (inner : List XmlObj) :
    matchesAll (.list .xmlList tagname inner :: embedded) right variablemap =
      matchesAll embedded right variablemap := by
  simp [matchesAll, XmlObj.matches, htag]

theorem matches_premise (hlist : right.isList = true) :
    (XmlObj.list .xmlList (jtext "premise") embedded).matches right variablemap =
      matchesAll embedded right variablemap := by
  have htag : isIgnoredTree (jtext "premise") = false := by decide
  have houter : isOuterTree (jtext "premise") = true := by decide
  simp [XmlObj.matches, htag, houter, hlist]

/-- An outer tree goes on to the parts of its part. -/
theorem matchesAll_outer (hpart : right.part tagname = part) (hlist : part.isList = true)
    (htag : isIgnoredTree tagname = false) (houter : isOuterTree tagname = true)
    (hfails : matchesAll embedded part variablemap = none) :
    matchesAll [.list .xmlList tagname embedded] right variablemap = none := by
  simp [matchesAll, XmlObj.getName, hpart, XmlObj.matches, htag, houter, hlist, hfails]

/-- Another tree goes on to them if there is an outer tree in between. -/
theorem matchesAll_inner (hpart : right.part tagname = part) (hlist : part.isList = true)
    (htag : isIgnoredTree tagname = false) (hinner : isOuterTree tagname = false)
    (hfails : matchesAll embedded part variablemap = none) :
    matchesAll [.list .xmlList tagname [.list .xmlList (jtext "subject") embedded]] right
      variablemap = none := by
  have hsubject : isIgnoredTree (jtext "subject") = false := by decide
  have houter : isOuterTree (jtext "subject") = true := by decide
  simp [matchesAll, matchesAny, XmlObj.getName, hpart, XmlObj.matches, htag, hinner, hlist,
    hsubject, houter, hfails]

/-- An object of a premise that comes to the empty text, and fails there. -/
theorem exists_probe {trees : List XmlTree} (h : EmptyTextReached trees) (hread : ReadAll trees) :
    ∃ o o', insertSynonymsAll nullSynonymProvider [o] = ([o'], true) ∧
      o.getName ≠ jtext "questionword" ∧
      ∀ right, right.isList = true → ShowsAll trees right.getEmbedded →
        ∀ variablemap, matchesAll [o'] right variablemap = none := by
  induction h with
  | @here trees htexts =>
      refine ⟨fromText (jtext "x"), .list .xmlText (jtext "text")
        [newSynonyms nullSynonymProvider (jtext "x")], rfl, by decide, ?_⟩
      intro right _ hshows variablemap
      have hforall := showsAll_texts hread hshows
      rw [htexts] at hforall
      obtain ⟨o, ho, hparts⟩ : ∃ o, Shows (.text []) o ∧
          right.parts (jtext "text") = [o] := by
        obtain ⟨o, os, ho, hnil, hparts⟩ := List.forall₂_cons_left_iff.mp hforall
        obtain rfl := List.forall₂_nil_left_iff.mp hnil
        exact ⟨o, ho, hparts⟩
      obtain ⟨inner, rfl, hinner, -⟩ := ho
      obtain rfl := hinner.mpr rfl
      have hpart : right.part (jtext "text") = .list .xmlText (jtext "text") [] := by
        simp [XmlObj.part, hparts, XmlObj.isList]
      simp [matchesAll, XmlObj.getName, hpart, XmlObj.matches, XmlObj.isText, XmlObj.getEmbedded,
        matchesTexts, cyclicSearch, wrap]
  | @part trees tagname htag hreached ih =>
      have hname : tagname ≠ jtext "text" := by
        rintro rfl
        exact not_reached_nil hreached (contentOf_text hread)
      obtain ⟨o, o', hinsert, -, hfails⟩ := ih (readAll_contentOf hread tagname)
      have hquestion : tagname ≠ jtext "questionword" := by
        rintro rfl
        exact absurd htag (by decide)
      cases houter : isOuterTree tagname with
      | true =>
          refine ⟨.list .xmlList tagname [o], .list .xmlList tagname [o'],
            insertSynonymsAll_list tagname hinsert, hquestion, ?_⟩
          intro right _ hshows variablemap
          obtain ⟨cls, name, inner, hpart, -, hall⟩ := showsAll_part hname hshows
          exact matchesAll_outer hpart rfl htag houter (hfails (.list cls name inner) rfl hall variablemap)
      | false =>
          refine ⟨.list .xmlList tagname [.list .xmlList (jtext "subject") [o]],
            .list .xmlList tagname [.list .xmlList (jtext "subject") [o']],
            insertSynonymsAll_list tagname (insertSynonymsAll_list _ hinsert), hquestion, ?_⟩
          intro right _ hshows variablemap
          obtain ⟨cls, name, inner, hpart, -, hall⟩ := showsAll_part hname hshows
          exact matchesAll_inner hpart rfl htag houter (hfails (.list cls name inner) rfl hall variablemap)

/-! ## Where every match returns -/

/-- A fact with a condition, of which one object is given. -/
def conditional (o : XmlObj) : XmlObj :=
  .list .xmlFact (jtext "fact") [.list .xmlList (jtext "clause")
    [.list .xmlList (jtext "questionword") [fromText (jtext "if")], o]]

/-- Its pattern. -/
def conditionalPattern (o' : XmlObj) : Pattern :=
  ⟨.list .xmlList (jtext "premise") [.list .xmlList (jtext "questionword")
      [.list .xmlText (jtext "text") [newSynonyms nullSynonymProvider (jtext "if")]], o'],
    .list .xmlList (jtext "conclusion") []⟩

theorem createPatterns_conditional {o o' : XmlObj} (hname : o.getName ≠ jtext "questionword")
    (hinsert : insertSynonymsAll nullSynonymProvider [o] = ([o'], true)) :
    (createPatterns id nullSynonymProvider (conditional o)).2 = some [conditionalPattern o'] := by
  obtain ⟨question, hquestion⟩ : ∃ question,
      question = XmlObj.list .xmlList (jtext "questionword") [fromText (jtext "if")] := ⟨_, rfl⟩
  obtain ⟨clause, hclause⟩ : ∃ clause,
      clause = XmlObj.list .xmlList (jtext "clause") [question, o] := ⟨_, rfl⟩
  have hclauseName : clause.getName = jtext "clause" := by rw [hclause]; rfl
  have hpremise : isPremise id nullSynonymProvider clause = some true := by
    have hcontained : question.contained id (getConsequenceQuestionwords nullSynonymProvider) =
        some true := by
      rw [hquestion]
      decide +kernel
    have hpart : clause.part (jtext "questionword") = question := by
      have hself : question.getName = jtext "questionword" := by rw [hquestion]; rfl
      have hlist : question.isList = true := by rw [hquestion]; rfl
      simp [hclause, XmlObj.part, XmlObj.parts, XmlObj.getEmbedded, hself, hname, hlist]
    have hlist : clause.isList = true := by rw [hclause]; rfl
    simp [isPremise, hlist, hpart, hcontained]
  have hfact : conditional o = .list .xmlFact (jtext "fact") [clause] := by
    rw [hclause, hquestion]
    rfl
  have hconsequence : isConsequenceFact id nullSynonymProvider (conditional o) = some true := by
    rw [hfact, isConsequenceFact]
    simp [XmlObj.parts, XmlObj.getEmbedded, hclauseName, anyPremise, hpremise]
  have hrenamed : renamePremises id nullSynonymProvider [clause] =
      ([(true, .list .xmlList (jtext "premise") [question, o])], true) := by
    have hname : clause.setName (jtext "premise") =
        .list .xmlList (jtext "premise") [question, o] := by
      rw [hclause]
      rfl
    simp [renamePremises, hclauseName, hpremise, hname]
  have hinserted : (XmlObj.list .xmlList (jtext "premise") [question, o]).insertSynonyms
      nullSynonymProvider = ((conditionalPattern o').premise, true) := by
    have hone : insertSynonymsAll nullSynonymProvider [question] =
        ([.list .xmlList (jtext "questionword") [.list .xmlText (jtext "text")
          [newSynonyms nullSynonymProvider (jtext "if")]]], true) := by
      rw [hquestion]
      rfl
    simp [XmlObj.insertSynonyms, insertSynonymsAll_cons hone hinsert, conditionalPattern]
  rw [hfact] at hconsequence ⊢
  simp [createPatterns, hconsequence, hrenamed, newPatterns, hinserted, conclusionOf, addPattern,
    conditionalPattern]

/-- The pattern of such an object fails if its object does. -/
theorem conditionalPattern_fails {o' xfact : XmlObj} (hlist : xfact.isList = true)
    (hfails : (xfact.insertSynonyms nullSynonymProvider).2 = true →
      ∀ variablemap, matchesAll [o'] (xfact.insertSynonyms nullSynonymProvider).1 variablemap =
        none) :
    ((conditionalPattern o').matches xfact).2 = none := by
  rw [Pattern.matches]
  generalize hr : xfact.insertSynonyms nullSynonymProvider = r at hfails ⊢
  have hlist : r.1.isList = true := by
    rw [← hr]
    cases xfact with
    | word text => cases hlist
    | var text after => cases hlist
    | list cls name embedded =>
        rw [XmlObj.insertSynonyms]
        split <;> rfl
  dsimp only
  split
  · next hok =>
      have hfails := hfails hok []
      rw [conditionalPattern, matches_premise hlist, matchesAll_ignored (by decide), hfails]
      rfl
  · rfl

/-- Matching any pattern with a fact returns. -/
def AlwaysReturns (xfact : XmlObj) : Prop :=
  ∀ toLowerCase database consequence patterns,
    (createPatterns toLowerCase database consequence).2 = some patterns →
      ∀ p ∈ patterns, (p.matches xfact).2 ≠ none

/-- What a fact embeds. -/
def contentsOf : XmlTree → List XmlTree
  | .text _ => []
  | .list _ embedded => embedded

theorem not_alwaysReturns {x : XmlTree} (hx : ReadFact x)
    (h : failing x = true ∨ EmptyTextReached (contentsOf x)) : ¬ AlwaysReturns (ofFact x) := by
  obtain ⟨content, rfl, hread⟩ := hx
  obtain ⟨hflag, hshows⟩ := @insertSynonymsAll_ofTrees nullSynonymProvider content
  have hcls : ListClass.xmlFact ≠ .xmlSynonyms := by decide
  have hinsert : (ofFact (.list (jtext "fact") content)).insertSynonyms nullSynonymProvider =
      (.list .xmlFact (jtext "fact") (insertSynonymsAll nullSynonymProvider (ofTrees content)).1,
        !failingAll content) := by
    rw [ofFact, XmlObj.insertSynonyms, if_neg hcls, ← hflag]
  intro hall
  by_cases hfails : failingAll content = true
  · have hprobe := @createPatterns_conditional (fromText (jtext "x")) _ (by decide) rfl
    refine hall _ _ _ _ hprobe _ (List.mem_singleton_self _) (conditionalPattern_fails rfl ?_)
    rw [hinsert, hfails]
    exact fun h => by cases h
  · have hok : failingAll content = false := by simpa using hfails
    have hreached : EmptyTextReached content := h.resolve_left hfails
    obtain ⟨o, o', hinserted, hname, hprobe⟩ := exists_probe hreached hread
    have hpattern := createPatterns_conditional hname hinserted
    refine hall _ _ _ _ hpattern _ (List.mem_singleton_self _) (conditionalPattern_fails rfl ?_)
    rw [hinsert]
    exact fun _ => hprobe (.list .xmlFact (jtext "fact") _) rfl (hshows hok)

/-- Matching with a fact that was read returns for every pattern if and only if no word of the fact
fails and no premise comes to a text of it without words. -/
theorem matches_returns_iff {pieces : List JString} {x : XmlTree} (hx : x ∈ readXmlFacts pieces) :
    AlwaysReturns (ofFact x) ↔ failing x = false ∧ ¬ EmptyTextReached (contentsOf x) := by
  have hread := Xml.readFact_readXmlFacts pieces x hx
  constructor
  · intro hall
    refine ⟨by_contra fun hfails => ?_, fun hreached => ?_⟩
    · exact not_alwaysReturns hread (Or.inl (by simpa using hfails)) hall
    · exact not_alwaysReturns hread (Or.inr hreached) hall
  · rintro ⟨hfails, hempty⟩ toLowerCase database consequence patterns - p -
    obtain ⟨content, rfl, hreadAll⟩ := hread
    obtain ⟨hflag, hshows⟩ := @insertSynonymsAll_ofTrees nullSynonymProvider content
    have hfails : failingAll content = false := hfails
    have hcls : ListClass.xmlFact ≠ .xmlSynonyms := by decide
    have hsettled : Settled (.list .xmlFact (jtext "fact")
        (insertSynonymsAll nullSynonymProvider (ofTrees content)).1) :=
      .tree (by decide) hreadAll (hshows hfails) hempty
    obtain ⟨m, hm⟩ := p.premise.matches_returns hsettled []
    simp [Pattern.matches, ofFact, XmlObj.insertSynonyms, hcls, hflag, hfails, hm]

/-- A fact whose texts have words. -/
theorem matches_returns_peter :
    AlwaysReturns (ofFact (.list (jtext "fact") [.list (jtext "subject") [.text [jtext "peter"]]])) ↔
      failing (.list (jtext "fact") [.list (jtext "subject") [.text [jtext "peter"]]]) = false ∧
        ¬ EmptyTextReached [.list (jtext "subject") [.text [jtext "peter"]]] :=
  @matches_returns_iff [jtext "<fact><subject>peter</subject></fact>"] _
    (List.mem_singleton.mpr rfl)

/-- A subject of a full stop is a text without words. -/
theorem matches_empty_text : ¬ ∀ pieces, ∀ x ∈ readXmlFacts pieces, AlwaysReturns (ofFact x) := by
  intro hall
  have hx : XmlTree.list (jtext "fact") [.list (jtext "subject") [.text []]] ∈
      readXmlFacts [jtext "<fact><subject>.</subject></fact>"] := List.mem_singleton.mpr rfl
  refine not_alwaysReturns (Xml.readFact_readXmlFacts _ _ hx) (Or.inr ?_) (hall _ _ hx)
  exact @EmptyTextReached.part _ (jtext "subject") (by decide) (.here rfl)

end Freehal.Reasoning
