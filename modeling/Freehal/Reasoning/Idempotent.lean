import Freehal.Lib.Fold
import Freehal.Reasoning.XmlObj

/-!
# Inserting synonyms twice

A word of a text is replaced by its synonyms, which are no word and no text, so that a second pass
does not enter them.
-/

namespace Freehal.Reasoning

open Freehal.Lib

variable {database : SynonymProvider}

/-- A word that is no variable. -/
def XmlObj.isPlainWord : XmlObj → Bool
  | .word _ => true
  | _ => false

/-! ## Texts -/

/-- What is inserted is no word. -/
theorem isPlainWord_of_toInsert {o o' : XmlObj} (h : toInsert database o = some o') :
    o'.isPlainWord = false := by
  cases o with
  | word text =>
      obtain ⟨word, -, rfl⟩ := Option.map_eq_some_iff.mp h
      rfl
  | var text after => cases h; rfl
  | list cls name embedded => cases h; rfl

theorem toInsert_of_not_word {o : XmlObj} (h : o.isPlainWord = false) :
    toInsert database o = some o := by
  cases o with
  | word text => cases h
  | var text after => rfl
  | list cls name embedded => rfl

theorem isPlainWord_setAfter (o : XmlObj) (after : List Nat) :
    (o.setAfter after).isPlainWord = o.isPlainWord := by
  cases o <;> rfl

theorem setAfter_setAfter (o : XmlObj) (after after' : List Nat) :
    (o.setAfter after).setAfter after' = o.setAfter after' := by
  cases o <;> rfl

theorem setAfters_setAfters (embedded : List XmlObj) :
    setAfters (setAfters embedded) = setAfters embedded := by
  have hlength : (setAfters embedded).length = embedded.length := List.length_mapIdx
  apply List.ext_getElem
  · rw [setAfters, List.length_mapIdx]
  · intro i h h'
    simp only [setAfters, List.getElem_mapIdx, List.length_mapIdx, setAfter_setAfter]

theorem isPlainWord_of_mem_setAfters {embedded : List XmlObj}
    (h : ∀ o ∈ embedded, o.isPlainWord = false) {o : XmlObj} (ho : o ∈ setAfters embedded) :
    o.isPlainWord = false := by
  obtain ⟨i, hi, rfl⟩ := List.mem_mapIdx.mp ho
  rw [isPlainWord_setAfter]
  exact h _ (List.getElem_mem hi)

/-- Nothing is inserted for objects that are no words. -/
theorem mapM_toInsert {embedded : List XmlObj} (h : ∀ o ∈ embedded, o.isPlainWord = false) :
    embedded.mapM (toInsert database) = some embedded := by
  induction embedded with
  | nil => rfl
  | cons o embedded ih =>
      rw [List.mapM_cons, toInsert_of_not_word (h o List.mem_cons_self),
        ih fun o ho => h o (List.mem_cons_of_mem _ ho)]
      rfl

theorem insertText_insertText (o : XmlObj) :
    insertText database (insertText database o).1 = insertText database o := by
  cases o with
  | word text => rfl
  | var text after => rfl
  | list cls name embedded =>
      cases hinserted : embedded.mapM (toInsert database) with
      | none => simp [insertText, hinserted]
      | some inserted =>
          have hwords : ∀ o ∈ inserted, o.isPlainWord = false := by
            intro o ho
            obtain ⟨o', -, hinsert⟩ := forall₂_mem_right (mapM_eq_some_iff.mp hinserted) ho
            exact isPlainWord_of_toInsert hinsert
          have hagain : (setAfters inserted).mapM (toInsert database) = some (setAfters inserted) :=
            mapM_toInsert fun o ho => isPlainWord_of_mem_setAfters hwords ho
          simp [insertText, hinserted, hagain, setAfters_setAfters]

/-- Whether a list is a text depends on its class. -/
theorem isText_list (cls : ListClass) (name : Xml.JString) (embedded embedded' : List XmlObj) :
    (XmlObj.list cls name embedded).isText = (XmlObj.list cls name embedded').isText := by
  cases cls <;> rfl

theorem isText_insertText (o : XmlObj) : (insertText database o).1.isText = o.isText := by
  cases o with
  | word text => rfl
  | var text after => rfl
  | list cls name embedded =>
      cases hinserted : embedded.mapM (toInsert database) with
      | none => simp only [insertText, hinserted]
      | some inserted =>
          simp only [insertText, hinserted]
          exact isText_list cls name _ _

/-! ## Trees -/

theorem isText_insertSynonyms (x : XmlObj) : (x.insertSynonyms database).1.isText = x.isText := by
  cases x with
  | word text => rfl
  | var text after => rfl
  | list cls name embedded =>
      rw [XmlObj.insertSynonyms]
      split
      · rfl
      · exact isText_list cls name _ _

mutual
/-- A second pass leaves every tree as the first one left it, and fails where the first one did. -/
theorem insertSynonyms_insertSynonyms (x : XmlObj) :
    (x.insertSynonyms database).1.insertSynonyms database = x.insertSynonyms database := by
  cases x with
  | word text => rfl
  | var text after => rfl
  | list cls name embedded =>
      by_cases hcls : cls = .xmlSynonyms
      · simp [XmlObj.insertSynonyms, hcls]
      · simp [XmlObj.insertSynonyms, hcls, insertSynonymsAll_insertSynonymsAll embedded]

theorem insertSynonymsAll_insertSynonymsAll (xs : List XmlObj) :
    insertSynonymsAll database (insertSynonymsAll database xs).1 =
      insertSynonymsAll database xs := by
  cases xs with
  | nil => rfl
  | cons e embedded =>
      have hrest := insertSynonymsAll_insertSynonymsAll embedded
      have hfirst : ∀ inserted,
          inserted = (if e.isText then insertText database e else e.insertSynonyms database) →
            (if inserted.1.isText then insertText database inserted.1
              else inserted.1.insertSynonyms database) = inserted := by
        rintro inserted rfl
        by_cases htext : e.isText
        · rw [if_pos htext, isText_insertText, if_pos htext, insertText_insertText]
        · rw [if_neg htext, isText_insertSynonyms, if_neg htext,
            insertSynonyms_insertSynonyms e]
      rw [insertSynonymsAll]
      generalize hinserted : (if e.isText then insertText database e
        else e.insertSynonyms database) = inserted
      have hagain := hfirst inserted hinserted.symm
      dsimp only
      by_cases hok : inserted.2
      · rw [if_pos hok, insertSynonymsAll, hagain]
        simp [hok, hrest]
      · rw [if_neg hok, insertSynonymsAll, hagain]
        simp [hok]
end

end Freehal.Reasoning
