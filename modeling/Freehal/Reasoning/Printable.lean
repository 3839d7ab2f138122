import Freehal.Reasoning.Copies
import Freehal.Reasoning.TextMatch
import Freehal.Xml.Lemmas.Printed

/-!
# Objects that are printed as trees

The objects of a fact that was read are printed as a tree that was read is, also with synonyms for
their words, as copies, and with other words for their variables.
-/

namespace Freehal.Reasoning

open Freehal.Xml (JString jtext XmlTree ReadAll TagName isWordChar)
open Freehal.Lib

/-! ## Printing -/

/-- An object of a text that is printed as one word. -/
inductive OneWord (word : JString) : XmlObj → Prop
  | word : OneWord word (.word word)
  | var {after : List Nat} : OneWord word (.var word after)
  | synonyms {cls : ListClass} : cls ≠ .xmlText →
      OneWord word (.list cls (jtext "synonyms") [.word word])

/-- The word is made of the characters of words. -/
def Spelled (o : XmlObj) : Prop := ∃ word, word.all isWordChar = true ∧ OneWord word o

/-- A word without synonyms. -/
def SpelledWord (o : XmlObj) : Prop := Spelled o ∧ o.isWord = true

mutual
/-- Lists with the names of tags, and texts of such objects. -/
def XmlObj.Printable (P : XmlObj → Prop) : XmlObj → Prop
  | .list cls name embedded =>
      if name = jtext "text" then ∀ e ∈ embedded, P e
      else cls ≠ .xmlText ∧ TagName name ∧ embedded ≠ [] ∧ PrintableAll P embedded
  | _ => False

def PrintableAll (P : XmlObj → Prop) : List XmlObj → Prop
  | [] => True
  | e :: embedded => e.Printable P ∧ PrintableAll P embedded
end

mutual
/-- The tree that is printed as an object is. -/
def XmlObj.shown : XmlObj → XmlTree
  | .word text => .text [text]
  | .var text _ => .text [text]
  | .list _ name embedded =>
      if name = jtext "text" then .text (embedded.map XmlObj.printXml)
      else .list name (shownAll embedded)

def shownAll : List XmlObj → List XmlTree
  | [] => []
  | e :: embedded => e.shown :: shownAll embedded
end

theorem shownAll_eq (embedded : List XmlObj) : shownAll embedded = embedded.map XmlObj.shown := by
  induction embedded with
  | nil => rfl
  | cons e embedded ih => rw [shownAll, ih, List.map_cons]

theorem shown_text (cls : ListClass) (embedded : List XmlObj) :
    (XmlObj.list cls (jtext "text") embedded).shown = .text (embedded.map XmlObj.printXml) := by
  rw [XmlObj.shown, if_pos rfl]

theorem shown_list (cls : ListClass) {name : JString} (hname : name ≠ jtext "text")
    (embedded : List XmlObj) :
    (XmlObj.list cls name embedded).shown = .list name (shownAll embedded) := by
  rw [XmlObj.shown, if_neg hname]

theorem printableAll_iff {P : XmlObj → Prop} {embedded : List XmlObj} :
    PrintableAll P embedded ↔ ∀ e ∈ embedded, e.Printable P := by
  induction embedded with
  | nil => simp [PrintableAll]
  | cons e embedded ih => simp [PrintableAll, ih]

theorem OneWord.printXmlFrom {word : JString} {o : XmlObj} (h : OneWord word o)
    (level secondlevel : Nat) : o.printXmlFrom level secondlevel = word := by
  cases h with
  | word => rfl
  | var => rfl
  | synonyms _ =>
      rw [XmlObj.printXmlFrom]
      exact if_pos rfl

theorem printWords_spelled {embedded : List XmlObj} (h : ∀ e ∈ embedded, Spelled e)
    (level secondlevel : Nat) (str : JString) :
    printWords level secondlevel str embedded =
      Xml.printWords str (embedded.map XmlObj.printXml) := by
  induction embedded generalizing str with
  | nil => rfl
  | cons e embedded ih =>
      obtain ⟨word, -, he⟩ := h e List.mem_cons_self
      rw [printWords, List.map_cons, Xml.printWords, he.printXmlFrom, XmlObj.printXml,
        he.printXmlFrom]
      exact ih (fun o ho => h o (List.mem_cons_of_mem _ ho)) _

mutual
theorem XmlObj.Printable.printXmlFrom (o : XmlObj) (h : o.Printable Spelled)
    (level secondlevel : Nat) :
    o.printXmlFrom level secondlevel = o.shown.printXmlFrom level secondlevel := by
  cases o with
  | word text => cases h
  | var text after => cases h
  | list cls name embedded =>
      rw [XmlObj.Printable] at h
      by_cases hname : name = jtext "text"
      · subst hname
        rw [if_pos rfl] at h
        have hclause : jtext "text" ≠ jtext "clause" := by decide
        have hsynonyms : jtext "text" ≠ jtext "synonyms" := by decide
        rw [shown_text, XmlTree.printXmlFrom, ← printWords_spelled h level secondlevel [],
          XmlObj.printXmlFrom]
        simp [hclause, hsynonyms]
      · rw [if_neg hname] at h
        have hall := h.2.2.2
        obtain ⟨e, rest, rfl⟩ := List.exists_cons_of_ne_nil h.2.2.1
        rw [shown_list cls hname, XmlTree.printXmlFrom, XmlObj.printXmlFrom]
        simp only [hname, if_false, PrintableAll.printEmbedded (e :: rest) hall, shownAll,
          printFirst, Xml.printFirst, XmlObj.Printable.printXmlFrom e hall.1]

theorem PrintableAll.printEmbedded (embedded : List XmlObj) (h : PrintableAll Spelled embedded)
    (level secondlevel : Nat) :
    printEmbedded level secondlevel embedded =
      Xml.printEmbedded level secondlevel (shownAll embedded) := by
  cases embedded with
  | nil => rfl
  | cons e embedded =>
      rw [Reasoning.printEmbedded, shownAll, Xml.printEmbedded,
        XmlObj.Printable.printXmlFrom e h.1, PrintableAll.printEmbedded embedded h.2]
end

mutual
theorem XmlObj.Printable.read (o : XmlObj) (h : o.Printable Spelled) : o.shown.Read := by
  cases o with
  | word text => cases h
  | var text after => cases h
  | list cls name embedded =>
      rw [XmlObj.Printable] at h
      rw [XmlObj.shown]
      split
      · next hname =>
          rw [if_pos hname] at h
          intro word hword
          obtain ⟨e, he, rfl⟩ := List.mem_map.mp hword
          obtain ⟨word, hall, hone⟩ := h e he
          rw [XmlObj.printXml, hone.printXmlFrom]
          exact hall
      · next hname =>
          rw [if_neg hname] at h
          refine ⟨h.2.1, ?_, PrintableAll.read embedded h.2.2.2⟩
          rw [shownAll_eq]
          exact fun hnil => h.2.2.1 (List.map_eq_nil_iff.mp hnil)

theorem PrintableAll.read (embedded : List XmlObj) (h : PrintableAll Spelled embedded) :
    ReadAll (shownAll embedded) := by
  cases embedded with
  | nil => trivial
  | cons e embedded => exact ⟨XmlObj.Printable.read e h.1, PrintableAll.read embedded h.2⟩
end

/-! ## What keeps objects printable -/

variable {P Q : XmlObj → Prop}

mutual
theorem XmlObj.Printable.mono (hPQ : ∀ o, P o → Q o) (o : XmlObj) (h : o.Printable P) :
    o.Printable Q := by
  cases o with
  | word text => cases h
  | var text after => cases h
  | list cls name embedded =>
      rw [XmlObj.Printable] at h ⊢
      split
      · next hname =>
          rw [if_pos hname] at h
          exact fun e he => hPQ e (h e he)
      · next hname =>
          rw [if_neg hname] at h
          exact ⟨h.1, h.2.1, h.2.2.1, PrintableAll.mono hPQ embedded h.2.2.2⟩

theorem PrintableAll.mono (hPQ : ∀ o, P o → Q o) (embedded : List XmlObj)
    (h : PrintableAll P embedded) : PrintableAll Q embedded := by
  cases embedded with
  | nil => trivial
  | cons e embedded => exact ⟨h.1.mono hPQ e, PrintableAll.mono hPQ embedded h.2⟩
end

theorem oneWord_setAfter {word : JString} {o : XmlObj} (h : OneWord word o) (after : List Nat) :
    OneWord word (o.setAfter after) := by
  cases h with
  | word => exact .word
  | var => exact .var
  | synonyms hcls => exact .synonyms hcls

theorem mem_setAfters {embedded : List XmlObj} {o : XmlObj} (h : o ∈ setAfters embedded) :
    ∃ e ∈ embedded, ∃ after, o = e.setAfter after := by
  obtain ⟨i, hi, rfl⟩ := List.mem_mapIdx.mp h
  exact ⟨_, List.getElem_mem hi, _, rfl⟩

theorem spelledWord_ofWords {words : List JString}
    (h : ∀ word ∈ words, word.all isWordChar = true) :
    ∀ e ∈ (ofWords words).getEmbedded, SpelledWord e := by
  intro e he
  obtain ⟨o, ho, after, rfl⟩ := mem_setAfters he
  obtain ⟨word, hword, rfl⟩ := List.mem_map.mp ho
  unfold ofWord
  split
  · exact ⟨⟨word, h word hword, .var⟩, rfl⟩
  · exact ⟨⟨word, h word hword, .word⟩, rfl⟩

mutual
/-- The objects of a tree that was read. -/
theorem printable_ofTree (x : XmlTree) (h : x.Read) : (ofTree x).Printable SpelledWord := by
  cases x with
  | text words =>
      rw [ofTree, ofWords, XmlObj.Printable, if_pos rfl]
      exact spelledWord_ofWords h
  | list name embedded =>
      rw [ofTree, XmlObj.Printable, if_neg h.1.text]
      refine ⟨by decide, h.1, fun hnil => h.2.1 ?_, printable_ofTrees embedded h.2.2⟩
      cases embedded with
      | nil => rfl
      | cons e embedded => cases hnil

theorem printable_ofTrees (embedded : List XmlTree) (h : ReadAll embedded) :
    PrintableAll SpelledWord (ofTrees embedded) := by
  cases embedded with
  | nil => trivial
  | cons e embedded => exact ⟨printable_ofTree e h.1, printable_ofTrees embedded h.2⟩
end

/-- The word itself is the only one of its synonyms. -/
theorem spelled_toInsert {o o' : XmlObj} (ho : SpelledWord o)
    (h : toInsert nullSynonymProvider o = some o') : Spelled o' := by
  obtain ⟨⟨word, hall, hone⟩, hword⟩ := ho
  cases hone with
  | word =>
      obtain ⟨word', hget, rfl⟩ := Option.map_eq_some_iff.mp h
      have hword' : word' = word := by
        unfold getWord wordOf newWord at hget
        split at hget
        · split at hget
          · cases hget
          · exact (Option.some.inj hget).symm
        · cases hget
      rw [hword', newSynonyms]
      exact ⟨word, hall, .synonyms (by decide)⟩
  | var => exact ⟨word, hall, Option.some.inj h ▸ .var⟩
  | synonyms _ => cases hword

theorem spelled_insertText {embedded : List XmlObj} (h : ∀ e ∈ embedded, SpelledWord e)
    (cls : ListClass) (name : JString) :
    ∀ e ∈ (insertText nullSynonymProvider (.list cls name embedded)).1.getEmbedded, Spelled e := by
  cases hm : embedded.mapM (toInsert nullSynonymProvider) with
  | none =>
      simp only [insertText, hm]
      exact fun e he => (h e he).1
  | some inserted =>
      simp only [insertText, hm]
      intro e he
      obtain ⟨o, ho, after, rfl⟩ := mem_setAfters he
      obtain ⟨e, he, heo⟩ := forall₂_mem_right (mapM_eq_some_iff.mp hm) ho
      obtain ⟨word, hall, hone⟩ := spelled_toInsert (h e he) heo
      exact ⟨word, hall, oneWord_setAfter hone after⟩

theorem insertSynonymsAll_words {database : SynonymProvider} {embedded : List XmlObj}
    (h : ∀ e ∈ embedded, e.isWord = true) :
    insertSynonymsAll database embedded = (embedded, true) := by
  induction embedded with
  | nil => rfl
  | cons e embedded ih =>
      have he := h e List.mem_cons_self
      have hrest := ih fun o ho => h o (List.mem_cons_of_mem _ ho)
      cases e with
      | word text => simp [insertSynonymsAll, XmlObj.isText, XmlObj.insertSynonyms, hrest]
      | var text after => simp [insertSynonymsAll, XmlObj.isText, XmlObj.insertSynonyms, hrest]
      | list cls name inner => cases he

theorem printable_insertText {e : XmlObj} (h : e.Printable SpelledWord) (htext : e.isText = true) :
    (insertText nullSynonymProvider e).1.Printable Spelled := by
  cases e with
  | word text => cases h
  | var text after => cases h
  | list cls name inner =>
      obtain rfl : cls = .xmlText := by cases cls <;> first | rfl | cases htext
      rw [XmlObj.Printable] at h
      by_cases hname : name = jtext "text"
      · rw [if_pos hname] at h
        have hspelled := spelled_insertText h .xmlText name
        cases hm : inner.mapM (toInsert nullSynonymProvider) with
        | none =>
            simp only [insertText, hm] at hspelled ⊢
            rw [XmlObj.Printable, if_pos hname]
            exact hspelled
        | some inserted =>
            simp only [insertText, hm] at hspelled ⊢
            rw [XmlObj.Printable, if_pos hname]
            exact hspelled
      · rw [if_neg hname] at h
        exact absurd rfl h.1

mutual
theorem printable_insertSynonyms (o : XmlObj) (h : o.Printable SpelledWord) :
    (o.insertSynonyms nullSynonymProvider).1.Printable Spelled := by
  cases o with
  | word text => cases h
  | var text after => cases h
  | list cls name embedded =>
      rw [XmlObj.insertSynonyms]
      split
      · exact h.mono (fun _ ho => ho.1) _
      · rw [XmlObj.Printable] at h ⊢
        split
        · next hname =>
            rw [if_pos hname] at h
            rw [insertSynonymsAll_words fun e he => (h e he).2]
            exact fun e he => (h e he).1
        · next hname =>
            rw [if_neg hname] at h
            obtain ⟨hcls, htag, hne, hall⟩ := h
            refine ⟨hcls, htag, ?_, printable_insertSynonymsAll embedded hall⟩
            obtain ⟨e, rest, rfl⟩ := List.exists_cons_of_ne_nil hne
            rw [insertSynonymsAll]
            split <;> split <;> simp

theorem printable_insertSynonymsAll (embedded : List XmlObj)
    (h : PrintableAll SpelledWord embedded) :
    PrintableAll Spelled (insertSynonymsAll nullSynonymProvider embedded).1 := by
  cases embedded with
  | nil => trivial
  | cons e embedded =>
      have hfirst : (if e.isText then insertText nullSynonymProvider e
          else e.insertSynonyms nullSynonymProvider).1.Printable Spelled := by
        split
        · next htext => exact printable_insertText h.1 htext
        · exact printable_insertSynonyms e h.1
      rw [insertSynonymsAll]
      generalize (if e.isText then insertText nullSynonymProvider e
        else e.insertSynonyms nullSynonymProvider) = inserted at hfirst
      dsimp only
      split
      · exact ⟨hfirst, printable_insertSynonymsAll embedded h.2⟩
      · exact ⟨hfirst, h.2.mono (fun _ ho => ho.1) embedded⟩
end

/-! ## The objects of a conclusion -/

theorem spelledWord_copy {o : XmlObj} (h : SpelledWord o) : SpelledWord o.copy := by
  obtain ⟨⟨word, hall, hone⟩, hword⟩ := h
  cases hone with
  | word => exact ⟨⟨word, hall, .word⟩, rfl⟩
  | var => exact ⟨⟨word, hall, .word⟩, rfl⟩
  | synonyms _ => cases hword

mutual
theorem printable_copy (o : XmlObj) (h : o.Printable SpelledWord) :
    o.copy.Printable SpelledWord := by
  cases o with
  | word text => cases h
  | var text after => cases h
  | list cls name embedded =>
      rw [XmlObj.Printable] at h
      rw [XmlObj.copy, XmlObj.Printable]
      split
      · next hname =>
          rw [if_pos hname] at h
          intro e he
          rw [copyAll_eq] at he
          obtain ⟨o, ho, rfl⟩ := List.mem_map.mp he
          exact spelledWord_copy (h o ho)
      · next hname =>
          rw [if_neg hname] at h
          refine ⟨by decide, h.2.1, ?_, printableAll_copyAll embedded h.2.2.2⟩
          rw [copyAll_eq]
          exact fun hnil => h.2.2.1 (List.map_eq_nil_iff.mp hnil)

theorem printableAll_copyAll (embedded : List XmlObj) (h : PrintableAll SpelledWord embedded) :
    PrintableAll SpelledWord (copyAll embedded) := by
  cases embedded with
  | nil => trivial
  | cons e embedded => exact ⟨printable_copy e h.1, printableAll_copyAll embedded h.2⟩
end

/-- All objects that variables stand for have a property. -/
def Bound (P : XmlObj → Prop) (variablemap : VariableMap) : Prop :=
  ∀ text bound, variablemap.get text = some bound → ∀ o ∈ bound, P o

variable {variablemap : VariableMap}

theorem bound_getD {text : JString} {o : XmlObj} (hmap : Bound P variablemap) (ho : P o) :
    ∀ e ∈ (variablemap.get text).getD [o], P e := by
  cases hget : variablemap.get text with
  | none => simpa using ho
  | some bound => exact hmap text bound hget

theorem spelled_insertVariablesAll (hmap : Bound Spelled variablemap) {embedded : List XmlObj}
    (h : ∀ e ∈ embedded, SpelledWord e) :
    ∀ e ∈ insertVariablesAll variablemap embedded, Spelled e := by
  induction embedded with
  | nil => exact fun e he => by cases he
  | cons o embedded ih =>
      have hrest := ih fun e he => h e (List.mem_cons_of_mem _ he)
      obtain ⟨hspelled, hword⟩ := h o List.mem_cons_self
      intro e he
      cases o with
      | word text =>
          rcases List.mem_append.mp he with he | he
          · exact bound_getD hmap hspelled e he
          · exact hrest e he
      | var text after =>
          rcases List.mem_append.mp he with he | he
          · exact bound_getD hmap hspelled e he
          · exact hrest e he
      | list cls name inner => cases hword

mutual
theorem printable_insertVariables (hmap : Bound Spelled variablemap) (o : XmlObj)
    (h : o.Printable SpelledWord) : (o.insertVariables variablemap).Printable Spelled := by
  cases o with
  | word text => cases h
  | var text after => cases h
  | list cls name embedded =>
      rw [XmlObj.Printable] at h
      rw [XmlObj.insertVariables, XmlObj.Printable]
      split
      · next hname =>
          rw [if_pos hname] at h
          exact spelled_insertVariablesAll hmap h
      · next hname =>
          rw [if_neg hname] at h
          obtain ⟨hcls, htag, hne, hall⟩ := h
          refine ⟨hcls, htag, ?_, printableAll_insertVariablesAll hmap embedded hall⟩
          obtain ⟨e, rest, rfl⟩ := List.exists_cons_of_ne_nil hne
          cases e with
          | word text => cases hall.1
          | var text after => cases hall.1
          | list cls name inner => exact List.cons_ne_nil _ _

theorem printableAll_insertVariablesAll (hmap : Bound Spelled variablemap)
    (embedded : List XmlObj) (h : PrintableAll SpelledWord embedded) :
    PrintableAll Spelled (insertVariablesAll variablemap embedded) := by
  cases embedded with
  | nil => trivial
  | cons e embedded =>
      cases e with
      | word text => cases h.1
      | var text after => cases h.1
      | list cls name inner =>
          exact ⟨printable_insertVariables hmap _ h.1,
            printableAll_insertVariablesAll hmap embedded h.2⟩
end

end Freehal.Reasoning
