import Freehal.Lib.Fold
import Freehal.Reasoning.Parts
import Freehal.Reasoning.Pattern

/-!
# What the reasoning changes in its facts

`createPatterns` renames the clauses of a fact that become premises, and its patterns insert
synonyms into them. So the facts that stay as they are are those without a premise.
-/

namespace Freehal.Reasoning

open Freehal.Xml (JString jtext)
open Freehal.Lib

/-! ## Tag names -/

mutual
/-- The tag names of a tree from the root on. -/
def XmlObj.tagNames : XmlObj → List JString
  | .list _ name embedded => name :: tagNamesAll embedded
  | _ => [[]]

def tagNamesAll : List XmlObj → List JString
  | [] => []
  | e :: embedded => e.tagNames ++ tagNamesAll embedded
end

theorem tagNamesAll_eq (embedded : List XmlObj) :
    tagNamesAll embedded = embedded.flatMap XmlObj.tagNames := by
  induction embedded with
  | nil => rfl
  | cons e embedded ih => rw [tagNamesAll, ih, List.flatMap_cons]

/-- A fact that is found where it was. -/
structure SameFact (x y : XmlObj) : Prop where
  names : x.tagNames = y.tagNames
  printed : x.printXml = y.printXml
  hash : x.hashCode = y.hashCode

theorem SameFact.refl (x : XmlObj) : SameFact x x := ⟨rfl, rfl, rfl⟩

theorem tagNames_setAfter (after : List Nat) (o : XmlObj) :
    (o.setAfter after).tagNames = o.tagNames := by
  cases o <;> rfl

theorem tagNames_setAfters (embedded : List XmlObj) :
    tagNamesAll (setAfters embedded) = tagNamesAll embedded := by
  rw [tagNamesAll_eq, tagNamesAll_eq, List.flatMap_def, List.flatMap_def,
    map_setAfters tagNames_setAfter]

/-! ## Synonyms bring no clauses -/

section

variable {database : SynonymProvider} {tagname : JString}

theorem count_newSynonyms (hne : tagname ≠ []) (hsyn : tagname ≠ jtext "synonyms")
    (word : JString) : (newSynonyms database word).tagNames.count tagname = 0 := by
  rw [newSynonyms, XmlObj.tagNames, List.count_cons_of_ne (Ne.symm hsyn), tagNamesAll_eq,
    List.count_eq_zero]
  simpa [XmlObj.tagNames] using ⟨hne, fun _ _ => hne⟩

theorem count_toInsert (hne : tagname ≠ []) (hsyn : tagname ≠ jtext "synonyms") {o o' : XmlObj}
    (h : toInsert database o = some o') :
    o'.tagNames.count tagname = o.tagNames.count tagname := by
  cases o with
  | var text after => exact Option.some.inj h ▸ rfl
  | list cls name embedded => exact Option.some.inj h ▸ rfl
  | word text =>
      obtain ⟨word, -, rfl⟩ := Option.map_eq_some_iff.mp h
      simp [count_newSynonyms hne hsyn, XmlObj.tagNames, Ne.symm hne]

theorem count_insertText (hne : tagname ≠ []) (hsyn : tagname ≠ jtext "synonyms") (x : XmlObj) :
    (insertText database x).1.tagNames.count tagname = x.tagNames.count tagname := by
  cases x with
  | word text => rfl
  | var text after => rfl
  | list cls name embedded =>
      cases hm : embedded.mapM (toInsert database) with
      | none => simp only [insertText, hm]
      | some inserted =>
          have hcount : (tagNamesAll inserted).count tagname =
              (tagNamesAll embedded).count tagname := by
            have hall := mapM_eq_some_iff.mp hm
            clear hm
            induction hall with
            | nil => rfl
            | cons h _ ih =>
                rw [tagNamesAll, tagNamesAll, List.count_append, List.count_append, ih,
                  count_toInsert hne hsyn h]
          simp only [insertText, hm, XmlObj.tagNames, tagNames_setAfters, List.count_cons, hcount]

mutual
theorem count_insertSynonyms (hne : tagname ≠ []) (hsyn : tagname ≠ jtext "synonyms")
    (x : XmlObj) :
    (x.insertSynonyms database).1.tagNames.count tagname = x.tagNames.count tagname := by
  cases x with
  | word text => rfl
  | var text after => rfl
  | list cls name embedded =>
      rw [XmlObj.insertSynonyms]
      split
      · rfl
      · simp only [XmlObj.tagNames, List.count_cons, count_insertSynonymsAll hne hsyn embedded]

theorem count_insertSynonymsAll (hne : tagname ≠ []) (hsyn : tagname ≠ jtext "synonyms")
    (embedded : List XmlObj) :
    (tagNamesAll (insertSynonymsAll database embedded).1).count tagname =
      (tagNamesAll embedded).count tagname := by
  cases embedded with
  | nil => rfl
  | cons e embedded =>
      have he := count_insertSynonyms hne hsyn e
      have htext := @count_insertText database tagname hne hsyn e
      have hrest := count_insertSynonymsAll hne hsyn embedded
      rw [insertSynonymsAll]
      split <;> split <;> simp only [tagNamesAll, List.count_append, he, htext, hrest]
end

/-! ## Premises are clauses no more -/

variable {toLowerCase : JString → JString}

theorem count_setName {e : XmlObj} (hname : e.getName = jtext "clause") :
    (e.setName (jtext "premise")).tagNames.count (jtext "clause") + 1 =
      e.tagNames.count (jtext "clause") := by
  cases e with
  | word text => cases hname
  | var text after => cases hname
  | list cls name embedded =>
      obtain rfl : name = jtext "clause" := hname
      have hne : jtext "premise" ≠ jtext "clause" := by decide
      rw [XmlObj.setName, XmlObj.tagNames, XmlObj.tagNames, List.count_cons_of_ne hne,
        List.count_cons_self]

theorem map_mark (b : Bool) (embedded : List XmlObj) :
    (embedded.map (b, ·)).map (·.2) = embedded := by
  rw [List.map_map]
  exact List.map_id embedded

/-- Renaming takes a clause away for every premise it comes to. -/
theorem count_renamePremises (embedded : List XmlObj) :
    (tagNamesAll ((renamePremises toLowerCase database embedded).1.map (·.2))).count
        (jtext "clause") ≤ (tagNamesAll embedded).count (jtext "clause") ∧
      (anyPremise toLowerCase database (embedded.filter (·.getName = jtext "clause")) = some true →
        (tagNamesAll ((renamePremises toLowerCase database embedded).1.map (·.2))).count
          (jtext "clause") < (tagNamesAll embedded).count (jtext "clause")) := by
  induction embedded with
  | nil => exact ⟨Nat.le_refl _, fun h => by cases h⟩
  | cons e embedded ih =>
      rw [renamePremises]
      by_cases hname : e.getName = jtext "clause"
      · simp only [hname, if_true, List.filter_cons, decide_true]
        cases hpremise : isPremise toLowerCase database e with
        | none =>
            simp only [anyPremise, hpremise, map_mark]
            exact ⟨Nat.le_refl _, fun h => by cases h⟩
        | some premise =>
            cases premise with
            | false =>
                simp only [anyPremise, hpremise, Bool.false_eq_true, if_false, List.map_cons,
                  tagNamesAll, List.count_append]
                exact ⟨by omega, fun h => by have := ih.2 h; omega⟩
            | true =>
                have hcount := count_setName hname
                simp only [if_true, List.map_cons, tagNamesAll, List.count_append]
                exact ⟨by omega, fun _ => by omega⟩
      · simp only [hname, if_false, List.filter_cons, decide_false, Bool.false_eq_true,
          List.map_cons, tagNamesAll, List.count_append]
        exact ⟨by omega, fun h => by have := ih.2 h; omega⟩

theorem count_newPatterns (conclusion : XmlObj) (renamed : List (Bool × XmlObj)) :
    (tagNamesAll (newPatterns database conclusion renamed).1).count (jtext "clause") =
      (tagNamesAll (renamed.map (·.2))).count (jtext "clause") := by
  induction renamed with
  | nil => rfl
  | cons d renamed ih =>
      obtain ⟨premise, e⟩ := d
      have he := @count_insertSynonyms database (jtext "clause") (by decide) (by decide) e
      cases premise with
      | false => simp only [newPatterns, List.map_cons, tagNamesAll, List.count_append, ih]
      | true =>
          rw [newPatterns]
          split <;> simp only [List.map_cons, tagNamesAll, List.count_append, he, ih]

/-- A consequence fact has a clause less afterwards. -/
theorem count_createPatterns {xfact : XmlObj}
    (h : isConsequenceFact toLowerCase database xfact = some true) :
    (createPatterns toLowerCase database xfact).1.tagNames.count (jtext "clause") <
      xfact.tagNames.count (jtext "clause") := by
  cases xfact with
  | word text => cases h
  | var text after => cases h
  | list cls name embedded =>
      have hcount := (count_renamePremises embedded).2 h
      have hmade := @count_newPatterns database
        (conclusionOf (renamePremises toLowerCase database embedded).1)
        (renamePremises toLowerCase database embedded).1
      simp only [createPatterns, h]
      split <;> simp only [XmlObj.tagNames, List.count_cons] <;> omega

/-! ## Facts that stay as they are -/

/-- Creating the patterns of a fact and matching them leaves the fact and the others as they are,
and the patterns of the fact are the same afterwards. -/
def LeavesFacts (toLowerCase : JString → JString) (database : SynonymProvider)
    (xfact : XmlObj) : Prop :=
  SameFact (createPatterns toLowerCase database xfact).1 xfact ∧
    (∀ patterns, (createPatterns toLowerCase database xfact).2 = some patterns →
      ∀ p ∈ patterns, ∀ other, SameFact (p.matches other).1 other) ∧
    (createPatterns toLowerCase database (createPatterns toLowerCase database xfact).1).2 =
      (createPatterns toLowerCase database xfact).2

theorem not_leavesFacts {xfact : XmlObj}
    (h : isConsequenceFact toLowerCase database xfact = some true) :
    ¬ LeavesFacts toLowerCase database xfact := by
  rintro ⟨hsame, -, -⟩
  have hcount := count_createPatterns h
  rw [hsame.names] at hcount
  exact Nat.lt_irrefl _ hcount

/-- The facts that the reasoning leaves as they are are those it makes no patterns of. -/
theorem leavesFacts_iff (xfact : XmlObj) :
    LeavesFacts toLowerCase database xfact ↔
      isConsequenceFact toLowerCase database xfact ≠ some true := by
  refine ⟨fun h hconsequence => not_leavesFacts hconsequence h, fun h => ?_⟩
  have hcreate : (createPatterns toLowerCase database xfact).1 = xfact ∧
      ∀ patterns, (createPatterns toLowerCase database xfact).2 = some patterns → patterns = [] := by
    unfold createPatterns
    split
    · contradiction
    · exact ⟨rfl, fun patterns hp => (Option.some.inj hp).symm⟩
    · exact ⟨rfl, fun patterns hp => by cases hp⟩
  refine ⟨by rw [hcreate.1]; exact SameFact.refl xfact, ?_, by rw [hcreate.1]⟩
  intro patterns hp p hmem
  rw [hcreate.2 patterns hp] at hmem
  cases hmem

/-- A fact with a condition. -/
def conditionalFact : XmlObj :=
  .list .xmlFact (jtext "fact")
    [.list .xmlList (jtext "subject") [fromText (jtext "peter")],
      .list .xmlList (jtext "clause")
        [.list .xmlList (jtext "questionword") [fromText (jtext "if")],
          .list .xmlList (jtext "subject") [fromText (jtext "anna")]]]

theorem createPatterns_renames : ¬ ∀ toLowerCase database xfact,
    LeavesFacts toLowerCase database xfact := by
  intro hall
  have hconsequence : isConsequenceFact id nullSynonymProvider conditionalFact = some true := by
    decide +kernel
  exact not_leavesFacts hconsequence (hall id nullSynonymProvider conditionalFact)

end

end Freehal.Reasoning
