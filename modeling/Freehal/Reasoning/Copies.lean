import Freehal.Lib.Fold
import Freehal.Reasoning.Parts
import Freehal.Reasoning.Pattern

/-!
# Copies

A copy has the names and the words of its original. Texts, synonyms, facts and variables become
lists and words, and nothing but a text behaves in another way than these.
-/

namespace Freehal.Reasoning

open Freehal.Xml (JString jtext)
open Freehal.Lib

variable {t right : XmlObj} {tagname : JString}

/-! ## What a copy shows -/

@[simp] theorem getName_copy (o : XmlObj) : o.copy.getName = o.getName := by
  cases o <;> simp [XmlObj.copy, XmlObj.getName]

@[simp] theorem isList_copy (o : XmlObj) : o.copy.isList = o.isList := by
  cases o <;> simp [XmlObj.copy, XmlObj.isList]

@[simp] theorem isText_copy (o : XmlObj) : o.copy.isText = false := by
  cases o <;> simp [XmlObj.copy, XmlObj.isText]

@[simp] theorem copy_setAfter (after : List Nat) (o : XmlObj) : (o.setAfter after).copy = o.copy := by
  cases o <;> simp [XmlObj.copy, XmlObj.setAfter]

theorem copyAll_eq (embedded : List XmlObj) : copyAll embedded = embedded.map XmlObj.copy := by
  induction embedded with
  | nil => rfl
  | cons e embedded ih => simp [copyAll, ih]

@[simp] theorem getEmbedded_copy (o : XmlObj) : o.copy.getEmbedded = copyAll o.getEmbedded := by
  cases o <;> simp [XmlObj.copy, XmlObj.getEmbedded, copyAll]

mutual
theorem copy_copy (o : XmlObj) : o.copy.copy = o.copy := by
  cases o with
  | word text => rfl
  | var text after => rfl
  | list cls name embedded => simp [XmlObj.copy, copyAll_copyAll embedded]

theorem copyAll_copyAll (embedded : List XmlObj) : copyAll (copyAll embedded) = copyAll embedded := by
  cases embedded with
  | nil => rfl
  | cons e embedded => simp [copyAll, copy_copy e, copyAll_copyAll embedded]
end

mutual
theorem textFree_copy (o : XmlObj) : o.copy.TextFree := by
  cases o with
  | word text => trivial
  | var text after => trivial
  | list cls name embedded => exact ⟨by decide, textFreeAll_copyAll embedded⟩

theorem textFreeAll_copyAll (embedded : List XmlObj) : TextFreeAll (copyAll embedded) := by
  cases embedded with
  | nil => trivial
  | cons e embedded => exact ⟨textFree_copy e, textFreeAll_copyAll embedded⟩
end

mutual
theorem printXmlFrom_copy (level secondlevel : Nat) (o : XmlObj) :
    o.copy.printXmlFrom level secondlevel = o.printXmlFrom level secondlevel := by
  cases o with
  | word text => rfl
  | var text after => rfl
  | list cls name embedded =>
      simp only [XmlObj.copy, XmlObj.printXmlFrom, printFirst_copyAll _ _ embedded,
        printWords_copyAll _ _ _ embedded, printEmbedded_copyAll _ _ embedded]

theorem printFirst_copyAll (level secondlevel : Nat) (embedded : List XmlObj) :
    printFirst level secondlevel (copyAll embedded) = printFirst level secondlevel embedded := by
  cases embedded with
  | nil => rfl
  | cons e embedded => exact printXmlFrom_copy level secondlevel e

theorem printWords_copyAll (level secondlevel : Nat) (str : JString) (embedded : List XmlObj) :
    printWords level secondlevel str (copyAll embedded) =
      printWords level secondlevel str embedded := by
  cases embedded with
  | nil => rfl
  | cons e embedded =>
      simp only [copyAll, printWords, printXmlFrom_copy _ _ e, printWords_copyAll _ _ _ embedded]

theorem printEmbedded_copyAll (level secondlevel : Nat) (embedded : List XmlObj) :
    printEmbedded level secondlevel (copyAll embedded) =
      printEmbedded level secondlevel embedded := by
  cases embedded with
  | nil => rfl
  | cons e embedded =>
      simp only [copyAll, printEmbedded, printXmlFrom_copy _ _ e, printEmbedded_copyAll _ _ embedded]
end

mutual
theorem getWords_copy (o : XmlObj) : o.copy.getWords = o.getWords := by
  cases o with
  | word text => rfl
  | var text after => rfl
  | list cls name embedded =>
      simp only [XmlObj.copy, XmlObj.getWords, getWordsAll_copyAll embedded]

theorem getWordsAll_copyAll (embedded : List XmlObj) :
    getWordsAll (copyAll embedded) = getWordsAll embedded := by
  cases embedded with
  | nil => rfl
  | cons e embedded =>
      simp only [copyAll, getWordsAll, getWords_copy e, getWordsAll_copyAll embedded]
end

mutual
theorem wordMatches_copy (text : JString) (o : XmlObj) :
    wordMatches text o.copy = wordMatches text o := by
  cases o with
  | word text2 => rfl
  | var text2 after => rfl
  | list cls name embedded =>
      simp only [XmlObj.copy, wordMatches, anyWordMatches_copyAll text embedded]

theorem anyWordMatches_copyAll (text : JString) (embedded : List XmlObj) :
    anyWordMatches text (copyAll embedded) = anyWordMatches text embedded := by
  cases embedded with
  | nil => rfl
  | cons e embedded =>
      simp only [copyAll, anyWordMatches, wordMatches_copy text e,
        anyWordMatches_copyAll text embedded]
end

theorem parts_copy (o : XmlObj) (tagname : JString) :
    o.copy.parts tagname = copyAll (o.parts tagname) := by
  simp [XmlObj.parts, copyAll_eq, List.filter_map, Function.comp_def]

theorem flatMap_addAll_copyAll (os : List XmlObj) :
    (copyAll os).flatMap (addAll []) = copyAll (os.flatMap (addAll [])) := by
  induction os with
  | nil => rfl
  | cons o os ih =>
      rw [copyAll, List.flatMap_cons, List.flatMap_cons, ih]
      cases o <;> simp [XmlObj.copy, addAll, copyAll_eq]

/-- The part of a copy is the copy of the part. -/
theorem part_copy (o : XmlObj) (tagname : JString) :
    o.copy.part tagname = (o.part tagname).copy := by
  unfold XmlObj.part
  rw [parts_copy]
  cases o.parts tagname with
  | nil => rfl
  | cons p os =>
      cases os with
      | nil =>
          simp only [copyAll, isList_copy]
          split <;> rfl
      | cons q os =>
          simp only [foldl_addAll, List.nil_append]
          exact congrArg (XmlObj.list .xmlList tagname) (flatMap_addAll_copyAll (p :: q :: os))

/-! ## Synonyms -/

/-- Two trees show the same tags and words. -/
def SameTree (x y : XmlObj) : Prop := x.copy = y.copy

/-- A word without its synonyms. -/
def XmlObj.isPlain : XmlObj → Bool
  | .word _ => true
  | _ => false

mutual
/-- A text of a tree holds words without their synonyms. -/
def XmlObj.plainWords : XmlObj → Bool
  | .list cls _ embedded => cls ≠ .xmlSynonyms && plainWordsAll embedded
  | _ => false

def plainWordsAll : List XmlObj → Bool
  | [] => false
  | e :: embedded =>
      (if e.isText then e.getEmbedded.any XmlObj.isPlain else e.plainWords) ||
        plainWordsAll embedded
end

variable {database : SynonymProvider}

mutual
theorem insertSynonyms_textFree (o : XmlObj) (h : o.TextFree) :
    o.insertSynonyms database = (o, true) := by
  cases o with
  | word text => rfl
  | var text after => rfl
  | list cls name embedded =>
      rw [XmlObj.insertSynonyms]
      split
      · rfl
      · rw [insertSynonymsAll_textFree embedded h.2]

theorem insertSynonymsAll_textFree (embedded : List XmlObj) (h : TextFreeAll embedded) :
    insertSynonymsAll database embedded = (embedded, true) := by
  cases embedded with
  | nil => rfl
  | cons e embedded =>
      simp [insertSynonymsAll, isText_of_textFree h.1, insertSynonyms_textFree e h.1,
        insertSynonymsAll_textFree embedded h.2]
end

/-- Copies have no texts into which synonyms could be inserted. -/
theorem insertSynonyms_copy (o : XmlObj) : o.copy.insertSynonyms database = (o.copy, true) :=
  insertSynonyms_textFree o.copy (textFree_copy o)

theorem copyAll_setAfters (embedded : List XmlObj) :
    copyAll (setAfters embedded) = copyAll embedded := by
  rw [copyAll_eq, copyAll_eq, map_setAfters copy_setAfter]

theorem toInsert_plain {o o' : XmlObj} (h : toInsert database o = some o') :
    o'.copy = o.copy ↔ o.isPlain = false := by
  cases o with
  | word text =>
      obtain ⟨word, -, rfl⟩ := Option.map_eq_some_iff.mp h
      simp [newSynonyms, XmlObj.copy, XmlObj.isPlain]
  | var text after =>
      obtain rfl := Option.some.inj h
      simp [XmlObj.isPlain]
  | list cls name embedded =>
      obtain rfl := Option.some.inj h
      simp [XmlObj.isPlain]

theorem toInsert_all_plain {embedded inserted : List XmlObj}
    (h : List.Forall₂ (fun o o' => toInsert database o = some o') embedded inserted) :
    copyAll inserted = copyAll embedded ↔ embedded.any XmlObj.isPlain = false := by
  induction h with
  | nil => simp
  | @cons o o' embedded inserted ho _ ih => simp [copyAll, toInsert_plain ho, ih]

/-- Inserting has succeeded, and the tree shows what it showed. -/
def Unchanged (inserted : XmlObj × Bool) (o : XmlObj) : Prop :=
  SameTree inserted.1 o ∧ inserted.2 = true

theorem insertText_unchanged_iff (o : XmlObj) (h : o.isText = true) :
    Unchanged (insertText database o) o ↔ o.getEmbedded.any XmlObj.isPlain = false := by
  cases o with
  | word text => cases h
  | var text after => cases h
  | list cls name embedded =>
      rw [insertText]
      cases hm : embedded.mapM (toInsert database) with
      | some inserted =>
          have hall := toInsert_all_plain (mapM_eq_some_iff.mp hm)
          simp [Unchanged, SameTree, XmlObj.copy, copyAll_setAfters, hall, XmlObj.getEmbedded]
      | none =>
          obtain ⟨o, ho, hnone⟩ := mapM_eq_none_iff.mp hm
          have hplain : o.isPlain = true := by
            cases o with
            | word text => rfl
            | var text after => cases hnone
            | list cls name embedded => cases hnone
          have hany : embedded.any XmlObj.isPlain = true := List.any_eq_true.mpr ⟨o, ho, hplain⟩
          simp [Unchanged, XmlObj.getEmbedded, hany]

mutual
theorem insertSynonyms_unchanged_iff (o : XmlObj) :
    Unchanged (o.insertSynonyms database) o ↔ o.plainWords = false := by
  cases o with
  | word text => simp [Unchanged, SameTree, XmlObj.insertSynonyms, XmlObj.plainWords]
  | var text after => simp [Unchanged, SameTree, XmlObj.insertSynonyms, XmlObj.plainWords]
  | list cls name embedded =>
      have hall := insertSynonymsAll_unchanged_iff embedded
      by_cases hcls : cls = .xmlSynonyms
      · simp [Unchanged, SameTree, XmlObj.insertSynonyms, XmlObj.plainWords, hcls]
      · simpa [Unchanged, SameTree, XmlObj.insertSynonyms, XmlObj.plainWords, hcls, XmlObj.copy]
          using hall

theorem insertSynonymsAll_unchanged_iff (embedded : List XmlObj) :
    copyAll (insertSynonymsAll database embedded).1 = copyAll embedded ∧
      (insertSynonymsAll database embedded).2 = true ↔ plainWordsAll embedded = false := by
  cases embedded with
  | nil => simp [insertSynonymsAll, plainWordsAll]
  | cons e embedded =>
      have hrest := insertSynonymsAll_unchanged_iff embedded
      have hfirst : Unchanged (if e.isText then insertText database e
          else e.insertSynonyms database) e ↔
            (if e.isText then e.getEmbedded.any XmlObj.isPlain else e.plainWords) = false := by
        split
        · next htext => exact insertText_unchanged_iff e htext
        · exact insertSynonyms_unchanged_iff e
      rw [insertSynonymsAll, plainWordsAll, Bool.or_eq_false_iff, ← hfirst, ← hrest]
      generalize (if e.isText then insertText database e else e.insertSynonyms database) = inserted
      cases hok : inserted.2 with
      | false => simp [Unchanged, hok]
      | true => simp [Unchanged, SameTree, hok, copyAll, and_assoc]
end

/-! ## Copies of premises -/

mutual
/-- There is a text in a tree where it is not ignored. -/
def XmlObj.textShown : XmlObj → Bool
  | .list cls name embedded => cls = .xmlText || !isIgnoredTree name && textShownAll embedded
  | _ => false

def textShownAll : List XmlObj → Bool
  | [] => false
  | e :: embedded => e.textShown || textShownAll embedded
end

mutual
/-- A premise matches as its copy does if no text of it is looked at. -/
theorem copy_matches (l : XmlObj) (h : l.textShown = false) (right : XmlObj)
    (variablemap : VariableMap) : l.copy.matches right variablemap = l.matches right variablemap := by
  cases l with
  | word text => rfl
  | var text after => rfl
  | list cls name embedded =>
      obtain ⟨hcls, hshown⟩ := Bool.or_eq_false_iff.mp h
      have hcls : cls ≠ .xmlText := by simpa using hcls
      cases htag : isIgnoredTree name with
      | true => simp [XmlObj.copy, XmlObj.matches, hcls, htag]
      | false =>
          have hshown : textShownAll embedded = false := by simpa [htag] using hshown
          simp only [XmlObj.copy, XmlObj.matches, hcls, htag, copyAll_matchesAll embedded hshown,
            copyAll_matchesAny embedded hshown, reduceCtorEq, false_and, if_false]

theorem copyAll_matchesAll (embedded : List XmlObj) (h : textShownAll embedded = false)
    (right : XmlObj) (variablemap : VariableMap) :
    matchesAll (copyAll embedded) right variablemap = matchesAll embedded right variablemap := by
  cases embedded with
  | nil => rfl
  | cons e embedded =>
      obtain ⟨he, hrest⟩ := Bool.or_eq_false_iff.mp h
      simp only [copyAll, matchesAll, getName_copy, copy_matches e he,
        copyAll_matchesAll embedded hrest]

theorem copyAll_matchesAny (embedded : List XmlObj) (h : textShownAll embedded = false)
    (right : XmlObj) (variablemap : VariableMap) :
    matchesAny (copyAll embedded) right variablemap = matchesAny embedded right variablemap := by
  cases embedded with
  | nil => rfl
  | cons e embedded =>
      obtain ⟨he, hrest⟩ := Bool.or_eq_false_iff.mp h
      simp only [copyAll, matchesAny, copy_matches e he, copyAll_matchesAny embedded hrest]
end

/-! ## Copies of facts -/

/-- By tags that a premise does not ignore one gets to a text. -/
inductive TextReached : XmlObj → Prop
  | here {x : XmlObj} {tagname : JString} : (x.part tagname).isText = true → TextReached x
  | part {x : XmlObj} {tagname : JString} : isIgnoredTree tagname = false →
      TextReached (x.part tagname) → TextReached x

/-- A fact that is no text and in which no premise comes to one. -/
structure TextHidden (x : XmlObj) : Prop where
  root : x.isText = false
  parts : ¬ TextReached x

theorem TextHidden.part {x : XmlObj} (h : TextHidden x) {tagname : JString}
    (htag : isIgnoredTree tagname = false) : TextHidden (x.part tagname) :=
  ⟨by_contra fun htext => h.parts (.here (by simpa using htext)),
    fun hreached => h.parts (.part htag hreached)⟩

theorem matches_ignored {e right : XmlObj} (htag : isIgnoredTree e.getName = true)
    (hright : right.isText = false) (variablemap : VariableMap) :
    e.matches right variablemap = some (true, variablemap) := by
  have hempty : isIgnoredTree [] = false := by decide
  cases e with
  | word text => simp [XmlObj.getName, hempty] at htag
  | var text after => simp [XmlObj.getName, hempty] at htag
  | list cls name embedded =>
      have htag : isIgnoredTree name = true := htag
      simp [XmlObj.matches, hright, htag]

mutual
theorem matches_copy (l : XmlObj) {x : XmlObj} (h : TextHidden x) (variablemap : VariableMap) :
    l.matches x.copy variablemap = l.matches x variablemap := by
  cases l with
  | word text => simp only [XmlObj.matches, wordMatches_copy]
  | var text after => simp only [XmlObj.matches, wordMatches_copy]
  | list cls name embedded =>
      simp only [XmlObj.matches, isText_copy, h.root, isList_copy, matchesAll_copy embedded h,
        matchesAny_copy embedded h, Bool.false_eq_true, and_false, if_false]

theorem matchesAll_copy (embedded : List XmlObj) {x : XmlObj} (h : TextHidden x)
    (variablemap : VariableMap) :
    matchesAll embedded x.copy variablemap = matchesAll embedded x variablemap := by
  cases embedded with
  | nil => rfl
  | cons e embedded =>
      have hpart : e.matches (x.part e.getName).copy variablemap =
          e.matches (x.part e.getName) variablemap := by
        cases htag : isIgnoredTree e.getName with
        | false => exact matches_copy e (h.part htag) variablemap
        | true =>
            have hno : (x.part e.getName).isText = false :=
              by_contra fun htext => h.parts (.here (by simpa using htext))
            rw [matches_ignored htag (isText_copy _), matches_ignored htag hno]
      simp only [matchesAll, part_copy, hpart, matchesAll_copy embedded h]

theorem matchesAny_copy (embedded : List XmlObj) {x : XmlObj} (h : TextHidden x)
    (variablemap : VariableMap) :
    matchesAny embedded x.copy variablemap = matchesAny embedded x variablemap := by
  cases embedded with
  | nil => rfl
  | cons e embedded =>
      simp only [matchesAny, matches_copy e h, matchesAny_copy embedded h]
end

/-! ## A premise for every text -/

/-- What a match with a text does: it fails, or it binds a variable. -/
def FailsOrBinds (m : Option (Bool × VariableMap)) : Prop :=
  ∀ r, m = some r → r.2 ≠ []

/-- A text of one variable. -/
def variableText (tagname : JString) : XmlObj := .list .xmlText tagname [.var [] []]

theorem variableText_binds (tagname : JString) {right : XmlObj} (h : right.isText = true) :
    FailsOrBinds ((variableText tagname).matches right []) := by
  simp only [variableText, XmlObj.matches, h, and_true, if_true]
  cases hemb : right.getEmbedded with
  | nil => simp [FailsOrBinds, matchesTexts, cyclicSearch, wrap]
  | cons e embedded =>
      have hnow : matchesAt (.var [] []) (fun r vs => (XmlObj.var [] []).matches r vs)
          (e :: embedded) (0 % (e :: embedded).length) [] =
            some (true, [([], variableWords false [] 0 (e :: embedded))]) := by
        simp [matchesAt, HashMap.put]
      have hrounds : (e :: embedded).length * 2 - 0 = (2 * embedded.length + 1) + 1 := by
        simp only [List.length_cons]
        omega
      rw [matchesTexts, hrounds, cyclicSearch_now hnow]
      simp [FailsOrBinds, matchesTexts, wrap]

theorem variableText_misses (tagname : JString) {right : XmlObj} (h : right.isText = false) :
    ∃ found, (variableText tagname).matches right [] = some (found, []) := by
  simp only [variableText, XmlObj.matches, h, Bool.false_eq_true, and_false, if_false]
  split
  · exact ⟨_, rfl⟩
  · split
    · cases hm : wordMatches [] (right.part []) with
      | true => simp [matchesAll, XmlObj.getName, XmlObj.matches, hm]
      | false => simp [matchesAll, XmlObj.getName, XmlObj.matches, hm]
    · cases hm : wordMatches [] right with
      | true => simp [matchesAny, XmlObj.matches, hm]
      | false => simp [matchesAny, XmlObj.matches, hm]

/-- Objects of a premise that come to a text of a fact, and miss it in the copy of the fact. -/
def Distinguishes (embedded : List XmlObj) (x : XmlObj) : Prop :=
  FailsOrBinds (matchesAll embedded x []) ∧ ∃ found, matchesAll embedded x.copy [] = some (found, [])

theorem matchesAll_singleton (o right : XmlObj) (variablemap : VariableMap) :
    matchesAll [o] right variablemap = o.matches (right.part o.getName) variablemap := by
  rw [matchesAll]
  cases o.matches (right.part o.getName) variablemap with
  | none => rfl
  | some m =>
      obtain ⟨found, variablemap'⟩ := m
      cases found <;> rfl

theorem matchesAny_singleton (o right : XmlObj) (variablemap : VariableMap) :
    matchesAny [o] right variablemap = o.matches right variablemap := by
  rw [matchesAny]
  cases o.matches right variablemap with
  | none => rfl
  | some m =>
      obtain ⟨found, variablemap'⟩ := m
      cases found <;> rfl

theorem matches_outer {name : JString} (hlist : right.isList = true)
    (htag : isIgnoredTree name = false) (houter : isOuterTree name = true) (embedded : List XmlObj)
    (variablemap : VariableMap) :
    (XmlObj.list .xmlList name embedded).matches right variablemap =
      matchesAll embedded right variablemap := by
  simp [XmlObj.matches, htag, houter, hlist]

/-- In a tree of any name that is not ignored a premise can go on to the parts. -/
theorem exists_matches_parts {name : JString} (htag : isIgnoredTree name = false) (o : XmlObj) :
    ∃ embedded, ∀ right variablemap, right.isList = true →
      (XmlObj.list .xmlList name embedded).matches right variablemap =
        matchesAll [o] right variablemap := by
  cases houter : isOuterTree name with
  | true => exact ⟨[o], fun right variablemap h => matches_outer h htag houter [o] variablemap⟩
  | false =>
      refine ⟨[.list .xmlList (jtext "subject") [o]], fun right variablemap h => ?_⟩
      have hinner : (XmlObj.list .xmlList name [.list .xmlList (jtext "subject") [o]]).matches right
          variablemap = matchesAny [.list .xmlList (jtext "subject") [o]] right variablemap := by
        simp [XmlObj.matches, htag, houter]
      rw [hinner, matchesAny_singleton, matches_outer h (by decide) (by decide)]

theorem exists_distinguishes {x : XmlObj} (h : TextReached x) : ∃ o, Distinguishes [o] x := by
  induction h with
  | @here x tagname htext =>
      refine ⟨variableText tagname, ?_, ?_⟩
      · rw [matchesAll_singleton]
        exact variableText_binds tagname htext
      · rw [matchesAll_singleton, part_copy]
        exact variableText_misses tagname (isText_copy _)
  | @part x tagname htag _ ih =>
      obtain ⟨o, hbinds, hmisses⟩ := ih
      obtain ⟨embedded, hembedded⟩ := exists_matches_parts htag o
      refine ⟨.list .xmlList tagname embedded, ?_, ?_⟩
      · rw [matchesAll_singleton]
        exact (hembedded _ [] (isList_part x tagname)).symm ▸ hbinds
      · rw [matchesAll_singleton, part_copy]
        exact (hembedded _ [] ((isList_copy _).trans (isList_part x tagname))).symm ▸ hmisses

/-! ## Where a copy behaves like its original -/

/-- Two results of a match: the variables stand for trees that show the same. -/
def SameResult (m m' : Option (Bool × VariableMap)) : Prop :=
  m.map (fun r => (r.1, r.2.map fun v => (v.1, copyAll v.2))) =
    m'.map fun r => (r.1, r.2.map fun v => (v.1, copyAll v.2))

/-- A copy gives the results of its original. -/
structure CopyAlike (t : XmlObj) : Prop where
  printXml : t.copy.printXml = t.printXml
  getWords : t.copy.getWords = t.getWords
  insertSynonyms : ∀ database,
    SameTree (t.copy.insertSynonyms database).1 (t.insertSynonyms database).1 ∧
      (t.copy.insertSynonyms database).2 = (t.insertSynonyms database).2
  /-- As a premise. -/
  left : ∀ right variablemap, t.copy.matches right variablemap = t.matches right variablemap
  /-- As a fact. -/
  right : ∀ left variablemap,
    SameResult (XmlObj.matches left t.copy variablemap) (left.matches t variablemap)

/-- Inserting synonyms cannot tell a copy from its original if all of them are inserted. -/
theorem insertSynonyms_alike_iff (t : XmlObj) :
    SameTree (t.copy.insertSynonyms database).1 (t.insertSynonyms database).1 ∧
      (t.copy.insertSynonyms database).2 = (t.insertSynonyms database).2 ↔
        t.plainWords = false := by
  rw [← @insertSynonyms_unchanged_iff database t, insertSynonyms_copy, Unchanged,
    SameTree, SameTree, copy_copy, eq_comm, eq_comm (a := true)]

theorem not_sameResult {m m' : Option (Bool × VariableMap)} (h : FailsOrBinds m)
    (h' : ∃ found, m' = some (found, [])) : ¬ SameResult m' m := by
  obtain ⟨found, rfl⟩ := h'
  cases m with
  | none => simp [SameResult]
  | some r =>
      intro hsame
      have hmaps := congrArg Prod.snd (Option.some.inj hsame)
      exact h r rfl (List.map_eq_nil_iff.mp hmaps.symm)

theorem part_of_nil {x : XmlObj} (h : x.getEmbedded = []) (tagname : JString) :
    x.part tagname = newList := by
  simp only [XmlObj.part, XmlObj.parts, h, List.filter_nil]

theorem getEmbedded_of_reached {x : XmlObj} (h : TextReached x) : x.getEmbedded ≠ [] := by
  induction h with
  | here htext =>
      intro hnil
      rw [part_of_nil hnil] at htext
      cases htext
  | part _ _ ih =>
      intro hnil
      exact ih (by rw [part_of_nil hnil, newList, XmlObj.getEmbedded])

theorem textHidden_of_alike {t : XmlObj} (h : CopyAlike t) : TextHidden t := by
  constructor
  · by_contra htext
    exact not_sameResult (variableText_binds [] (by simpa using htext))
      (variableText_misses [] (isText_copy t)) (h.right (variableText []) [])
  · intro hreached
    obtain ⟨o, hbinds, hmisses⟩ := exists_distinguishes hreached
    obtain ⟨embedded, hembedded⟩ :=
      exists_matches_parts (by decide : isIgnoredTree (jtext "premise") = false) o
    have hlist : t.isList = true := by
      have := getEmbedded_of_reached hreached
      cases t with
      | word text => exact absurd rfl this
      | var text after => exact absurd rfl this
      | list cls name inner => rfl
    have hsame := h.right (.list .xmlList (jtext "premise") embedded) []
    rw [hembedded _ _ hlist, hembedded _ _ ((isList_copy t).trans hlist)] at hsame
    exact not_sameResult hbinds hmisses hsame

/-- A copy behaves like its original if no text of it is looked at, neither as a premise nor as a
fact, and none holds words without their synonyms. Where a fact has a text, or a word in a text is
without its synonyms, the copy is told from the original. -/
theorem copyAlike_of_textHidden (t : XmlObj) :
    (t.textShown = false ∧ TextHidden t ∧ t.plainWords = false → CopyAlike t) ∧
      (CopyAlike t → TextHidden t ∧ t.plainWords = false) := by
  constructor
  · rintro ⟨hshown, hhidden, hplain⟩
    exact {
      printXml := printXmlFrom_copy 0 0 t
      getWords := getWords_copy t
      insertSynonyms := fun database => (insertSynonyms_alike_iff t).mpr hplain
      left := copy_matches t hshown
      right := fun left variablemap => by
        rw [SameResult, matches_copy left hhidden] }
  · intro h
    exact ⟨textHidden_of_alike h,
      (insertSynonyms_alike_iff t).mp (h.insertSynonyms nullSynonymProvider)⟩

/-- The copy of a fact with a subject. -/
theorem copy_loses_text : ¬ ∀ pieces, ∀ x ∈ Xml.readXmlFacts pieces, CopyAlike (ofFact x) := by
  intro hall
  have hx : Xml.XmlTree.list (jtext "fact") [.list (jtext "subject") [.text [jtext "peter"]]] ∈
      Xml.readXmlFacts [jtext "<fact><subject>peter</subject></fact>"] :=
    List.mem_singleton.mpr rfl
  have hplain := (insertSynonyms_alike_iff _).mp
    ((hall _ _ hx).insertSynonyms nullSynonymProvider)
  revert hplain
  decide

end Freehal.Reasoning
