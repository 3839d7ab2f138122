import Freehal.Lib.Regroup
import Freehal.Reasoning.Parts

/-!
# Trimming

`XmlList.trim` groups the embedded objects by their tags. What is no list is in none of the groups,
and the lists of a group are dissolved where the group is embedded again.
-/

namespace Freehal.Reasoning

open Freehal.Xml (JString jtext)
open Freehal.Lib

/-- The names of `subject`, `object`, `adverbs` and `verb`. -/
def groupTags : List JString := [jtext "subject", jtext "object", jtext "adverbs", jtext "verb"]

/-- The embedded objects again: the groups through `addAll(XmlObj)`, the others through
`addAll(List)`. -/
def regroup (lists : List XmlObj) : List XmlObj :=
  (groupTags.map fun tagname =>
    XmlObj.list .xmlList tagname ((lists.filter (·.getName = tagname)).foldl addAll [])).foldl
      addAll [] ++ lists.filter fun e => !groupTags.contains e.getName

mutual
def XmlObj.trim : XmlObj → XmlObj
  | .list cls name embedded => .list cls name (regroup (trimAll embedded))
  | o => o

/-- The embedded lists, trimmed. -/
def trimAll : List XmlObj → List XmlObj
  | [] => []
  | .word _ :: embedded => trimAll embedded
  | .var _ _ :: embedded => trimAll embedded
  | .list cls name inner :: embedded => (XmlObj.list cls name inner).trim :: trimAll embedded
end

/-! ## The content of a tree -/

mutual
/-- The words at the leaves, from left to right. -/
def XmlObj.leafWords : XmlObj → List JString
  | .word text => [text]
  | .var text _ => [text]
  | .list _ _ embedded => leafWordsAll embedded

def leafWordsAll : List XmlObj → List JString
  | [] => []
  | e :: embedded => e.leafWords ++ leafWordsAll embedded
end

mutual
/-- An embedded object and what is embedded in it: words by their texts, lists by their names. The
lists that are grouped may become one list. -/
def XmlObj.objects : XmlObj → List (Bool × JString)
  | .word text => [(true, text)]
  | .var text _ => [(true, text)]
  | .list _ name embedded =>
      (if groupTags.contains name then [] else [(false, name)]) ++ objectsAll embedded

def objectsAll : List XmlObj → List (Bool × JString)
  | [] => []
  | e :: embedded => e.objects ++ objectsAll embedded
end

/-- Every part has the same words, and no embedded object is lost. -/
def TrimKeeps (x : XmlObj) : Prop :=
  (∀ tagname, (x.trim.part tagname).leafWords = (x.part tagname).leafWords) ∧
    (objectsAll x.trim.getEmbedded).Perm (objectsAll x.getEmbedded)

theorem leafWordsAll_eq (embedded : List XmlObj) :
    leafWordsAll embedded = embedded.flatMap XmlObj.leafWords := by
  induction embedded with
  | nil => rfl
  | cons e embedded ih => rw [leafWordsAll, ih, List.flatMap_cons]

theorem objectsAll_eq (embedded : List XmlObj) :
    objectsAll embedded = embedded.flatMap XmlObj.objects := by
  induction embedded with
  | nil => rfl
  | cons e embedded ih => rw [objectsAll, ih, List.flatMap_cons]

mutual
/-- The words among the objects. -/
theorem XmlObj.objects_words (x : XmlObj) :
    x.objects.filterMap (fun o => if o.1 then some o.2 else none) = x.leafWords := by
  cases x with
  | word text => rfl
  | var text after => rfl
  | list cls name embedded =>
      rw [XmlObj.objects, XmlObj.leafWords, List.filterMap_append, objectsAll_words embedded]
      split <;> rfl

theorem objectsAll_words (embedded : List XmlObj) :
    (objectsAll embedded).filterMap (fun o => if o.1 then some o.2 else none) =
      leafWordsAll embedded := by
  cases embedded with
  | nil => rfl
  | cons e embedded =>
      rw [objectsAll, leafWordsAll, List.filterMap_append, e.objects_words,
        objectsAll_words embedded]
end

theorem leafWords_part {x : XmlObj} (h : leafWordsAll x.getEmbedded = []) (tagname : JString) :
    (x.part tagname).leafWords = [] := by
  rw [leafWordsAll_eq, List.flatMap_eq_nil_iff] at h
  have hparts : ∀ o ∈ x.parts tagname, o.leafWords = [] :=
    fun o ho => h o (List.mem_filter.mp ho).1
  rcases part_cases x tagname with ⟨o, ho, -, hpart⟩ | ⟨-, hpart⟩ | ⟨-, hpart⟩
  · rw [hpart]
    exact hparts o (by simp [ho])
  · rw [hpart]
    rfl
  · rw [hpart, XmlObj.leafWords, leafWordsAll_eq, List.flatMap_eq_nil_iff]
    intro e he
    obtain ⟨o, ho, he⟩ := List.mem_flatMap.mp he
    have hwords := hparts o ho
    cases o with
    | word text => cases hwords
    | var text after => cases hwords
    | list cls name embedded =>
        rw [XmlObj.leafWords, leafWordsAll_eq, List.flatMap_eq_nil_iff] at hwords
        exact hwords e he

/-! ## Regrouping -/

theorem regroup_eq (lists : List XmlObj) : regroup lists =
    groupTags.flatMap (fun tagname => (lists.filter (·.getName = tagname)).flatMap (addAll [])) ++
      lists.filter fun e => !groupTags.contains e.getName := by
  rw [regroup, foldl_addAll, List.nil_append, List.flatMap_map]
  simp only [addAll, foldl_addAll, List.nil_append]

theorem mem_regroup {lists : List XmlObj} {e : XmlObj} (h : e ∈ regroup lists) :
    e ∈ lists ∨ ∃ o ∈ lists, e ∈ addAll [] o := by
  rw [regroup_eq, List.mem_append] at h
  rcases h with h | h
  · obtain ⟨tagname, -, h⟩ := List.mem_flatMap.mp h
    obtain ⟨o, ho, he⟩ := List.mem_flatMap.mp h
    exact Or.inr ⟨o, (List.mem_filter.mp ho).1, he⟩
  · exact Or.inl (List.mem_filter.mp h).1

mutual
/-- No word is left in a list. -/
theorem leafWords_trim (cls : ListClass) (name : JString) (embedded : List XmlObj) :
    (XmlObj.list cls name embedded).trim.leafWords = [] := by
  rw [XmlObj.trim, XmlObj.leafWords, leafWordsAll_eq, List.flatMap_eq_nil_iff]
  intro e he
  have hall := leafWords_trimAll embedded
  rcases mem_regroup he with he | ⟨o, ho, he⟩
  · exact (hall e he).2
  · obtain ⟨hlist, hwords⟩ := hall o ho
    cases o with
    | word text => cases hlist
    | var text after => cases hlist
    | list cls name inner =>
        rw [XmlObj.leafWords, leafWordsAll_eq, List.flatMap_eq_nil_iff] at hwords
        exact hwords e he

theorem leafWords_trimAll (embedded : List XmlObj) :
    ∀ o ∈ trimAll embedded, o.isList = true ∧ o.leafWords = [] := by
  cases embedded with
  | nil => exact fun o ho => by cases ho
  | cons e embedded =>
      have hrest := leafWords_trimAll embedded
      cases e with
      | word text => exact hrest
      | var text after => exact hrest
      | list cls name inner =>
          intro o ho
          rcases List.mem_cons.mp ho with rfl | ho
          · exact ⟨rfl, leafWords_trim cls name inner⟩
          · exact hrest o ho
end

theorem groupTags_nodup : groupTags.Nodup := by decide

/-- Regrouping lists loses none of their objects. -/
theorem objectsAll_regroup {lists : List XmlObj} (h : ∀ o ∈ lists, o.isList = true) :
    (objectsAll (regroup lists)).Perm (objectsAll lists) := by
  have hgroup : ∀ tagname ∈ groupTags,
      ((lists.filter (·.getName = tagname)).flatMap (addAll [])).flatMap XmlObj.objects =
        (lists.filter (·.getName = tagname)).flatMap XmlObj.objects := by
    intro tagname htag
    rw [List.flatMap_assoc]
    refine List.flatMap_congr fun o ho => ?_
    obtain ⟨ho, hname⟩ := List.mem_filter.mp ho
    have hlist := h o ho
    cases o with
    | word text => cases hlist
    | var text after => cases hlist
    | list cls name inner =>
        obtain rfl : name = tagname := of_decide_eq_true hname
        have hcontains : groupTags.contains name = true := by simpa using htag
        rw [XmlObj.objects, if_pos hcontains, objectsAll_eq]
        rfl
  rw [objectsAll_eq, objectsAll_eq, regroup_eq, List.flatMap_append, List.flatMap_assoc,
    List.flatMap_congr hgroup]
  exact flatMap_regroup XmlObj.getName XmlObj.objects groupTags_nodup lists

mutual
/-- Nothing is lost of an object without words. -/
theorem XmlObj.objects_trim (x : XmlObj) (h : x.leafWords = []) :
    x.trim.objects.Perm x.objects := by
  cases x with
  | word text => exact List.Perm.refl _
  | var text after => exact List.Perm.refl _
  | list cls name embedded =>
      rw [XmlObj.trim, XmlObj.objects, XmlObj.objects]
      refine List.Perm.append_left _ ?_
      exact (objectsAll_regroup fun o ho => (leafWords_trimAll embedded o ho).1).trans
        (objectsAll_trimAll embedded h)

theorem objectsAll_trimAll (embedded : List XmlObj) (h : leafWordsAll embedded = []) :
    (objectsAll (trimAll embedded)).Perm (objectsAll embedded) := by
  cases embedded with
  | nil => exact List.Perm.refl _
  | cons e embedded =>
      obtain ⟨he, hrest⟩ := List.append_eq_nil_iff.mp h
      have hperm := objectsAll_trimAll embedded hrest
      cases e with
      | word text => cases he
      | var text after => cases he
      | list cls name inner =>
          exact ((XmlObj.list cls name inner).objects_trim he).append hperm
end

/-- Trimming keeps the content of exactly those lists that hold no word. -/
theorem trim_keeps_iff (x : XmlObj) (hlist : x.isList = true) :
    TrimKeeps x ↔ x.leafWords = [] := by
  cases x with
  | word text => cases hlist
  | var text after => cases hlist
  | list cls name embedded =>
      have htrim := leafWords_trim cls name embedded
      constructor
      · rintro ⟨-, hperm⟩
        have hwords := hperm.filterMap fun o => if o.1 then some o.2 else none
        rw [objectsAll_words, objectsAll_words] at hwords
        have hnil : leafWordsAll (XmlObj.list cls name embedded).trim.getEmbedded = [] := htrim
        rw [hnil] at hwords
        exact hwords.symm.eq_nil
      · intro hwords
        refine ⟨fun tagname => ?_, ?_⟩
        · rw [@leafWords_part (XmlObj.list cls name embedded).trim htrim,
            @leafWords_part (.list cls name embedded) hwords]
        · exact (objectsAll_regroup fun o ho => (leafWords_trimAll embedded o ho).1).trans
            (objectsAll_trimAll embedded hwords)

/-- A list without words, with two lists of one group. -/
theorem trim_keeps_empty : TrimKeeps (.list .xmlFact (jtext "fact")
      [.list .xmlList (jtext "subject") [newList], .list .xmlList (jtext "subject") []]) ↔
    (XmlObj.list .xmlFact (jtext "fact")
      [.list .xmlList (jtext "subject") [newList],
        .list .xmlList (jtext "subject") []]).leafWords = [] :=
  trim_keeps_iff _ rfl

theorem trim_loses_words : ¬ ∀ x : XmlObj, x.isList = true → TrimKeeps x := by
  intro hall
  obtain ⟨hwords, -⟩ := hall (.list .xmlFact (jtext "fact")
    [.list .xmlList (jtext "subject") [fromText (jtext "peter")]]) rfl
  exact absurd (hwords (jtext "subject")) (by decide +kernel)

end Freehal.Reasoning
