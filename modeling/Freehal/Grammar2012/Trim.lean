import Freehal.Grammar2012.DiskDb
import Freehal.Lib.Regroup

/-!
# Trimming in `grammar2012`

`xml_obj::trim` groups the content of a tree by its tags, as `XmlList.trim` does, but embeds the
groups as lists and keeps the texts. So nothing is lost.
-/

namespace Freehal.Grammar2012

open Freehal.Lib

def groupTags : List Str :=
  ["subject".toList, "object".toList, "adverbs".toList, "verb".toList]

/-- The groups that are not empty, and the others. -/
def regroup (content : List XmlObj) : List XmlObj :=
  (groupTags.map fun tagname => XmlObj.list tagname
    ((content.filter (·.name = tagname)).flatMap XmlObj.content)).filter (·.content.length > 0) ++
    content.filter fun e => !groupTags.contains e.name

mutual
def XmlObj.trim : XmlObj → XmlObj
  | .text text => .text text
  | .list name content => .list name (regroup (trimAll content))

def trimAll : List XmlObj → List XmlObj
  | [] => []
  | e :: content => e.trim :: trimAll content
end

mutual
/-- An object and its content: texts, and lists by their names. The lists that are grouped may
become one list. -/
def XmlObj.objects : XmlObj → List (Bool × Str)
  | .text text => [(true, text)]
  | .list name content =>
      (if groupTags.contains name then [] else [(false, name)]) ++ objectsAll content

def objectsAll : List XmlObj → List (Bool × Str)
  | [] => []
  | e :: content => e.objects ++ objectsAll content
end

theorem objectsAll_eq (content : List XmlObj) :
    objectsAll content = content.flatMap XmlObj.objects := by
  induction content with
  | nil => rfl
  | cons e content ih => rw [objectsAll, ih, List.flatMap_cons]

theorem groupTags_nodup : groupTags.Nodup := by decide

/-- A group has the objects of its lists, and without them it is no loss. -/
theorem objects_groups (content : List XmlObj) {tags : List Str} (htags : tags ⊆ groupTags) :
    objectsAll ((tags.map fun tagname => XmlObj.list tagname
      ((content.filter (·.name = tagname)).flatMap XmlObj.content)).filter
        (·.content.length > 0)) =
      tags.flatMap fun tagname => (content.filter (·.name = tagname)).flatMap XmlObj.objects := by
  induction tags with
  | nil => rfl
  | cons tagname tags ih =>
      have hrest := ih (List.subset_of_cons_subset htags)
      have hcontains : groupTags.contains tagname = true := by
        simpa using htags List.mem_cons_self
      have hgroup : (content.filter (·.name = tagname)).flatMap XmlObj.objects =
          objectsAll ((content.filter (·.name = tagname)).flatMap XmlObj.content) := by
        rw [objectsAll_eq, List.flatMap_assoc]
        refine List.flatMap_congr fun o ho => ?_
        have hname : o.name = tagname := of_decide_eq_true (List.mem_filter.mp ho).2
        cases o with
        | text text =>
            have hnil : groupTags.contains [] = false := by decide
            rw [← hname, XmlObj.name, hnil] at hcontains
            cases hcontains
        | list name inner =>
            obtain rfl : name = tagname := hname
            rw [XmlObj.objects, if_pos hcontains, objectsAll_eq]
            rfl
      rw [List.map_cons, List.filter_cons, List.flatMap_cons, hgroup]
      split
      · rw [objectsAll, XmlObj.objects, if_pos hcontains, hrest]
        rfl
      · next hlen =>
          have hnil : (content.filter (·.name = tagname)).flatMap XmlObj.content = [] := by
            have hlen : ¬ ((content.filter (·.name = tagname)).flatMap XmlObj.content).length > 0 :=
              fun h => hlen (decide_eq_true h)
            exact List.length_eq_zero_iff.mp (by omega)
          rw [hrest, hnil]
          rfl

theorem objectsAll_regroup (content : List XmlObj) :
    (objectsAll (regroup content)).Perm (objectsAll content) := by
  rw [regroup, objectsAll_eq, List.flatMap_append, ← objectsAll_eq, ← objectsAll_eq,
    objects_groups content (List.Subset.refl _), objectsAll_eq, objectsAll_eq]
  exact flatMap_regroup XmlObj.name XmlObj.objects groupTags_nodup content

mutual
/-- Trimming loses no object. -/
theorem XmlObj.objects_trim (x : XmlObj) : x.trim.objects.Perm x.objects := by
  cases x with
  | text text => exact List.Perm.refl _
  | list name content =>
      rw [XmlObj.trim, XmlObj.objects, XmlObj.objects]
      exact List.Perm.append_left _
        ((objectsAll_regroup (trimAll content)).trans (objectsAll_trimAll content))

theorem objectsAll_trimAll (content : List XmlObj) :
    (objectsAll (trimAll content)).Perm (objectsAll content) := by
  cases content with
  | nil => exact List.Perm.refl _
  | cons e content => exact e.objects_trim.append (objectsAll_trimAll content)
end

end Freehal.Grammar2012
