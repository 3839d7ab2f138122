import Freehal.Reasoning.XmlObj

/-!
# The parts of a list

What `part` gives, and trees in which there is no text.
-/

namespace Freehal.Reasoning

open Freehal.Xml (JString)

/-! ## Objects without texts -/

mutual
/-- There is no `XmlText` in a tree. -/
def XmlObj.TextFree : XmlObj → Prop
  | .list cls _ embedded => cls ≠ .xmlText ∧ TextFreeAll embedded
  | _ => True

def TextFreeAll : List XmlObj → Prop
  | [] => True
  | e :: embedded => e.TextFree ∧ TextFreeAll embedded
end

theorem textFreeAll_iff {embedded : List XmlObj} :
    TextFreeAll embedded ↔ ∀ e ∈ embedded, e.TextFree := by
  induction embedded with
  | nil => simp [TextFreeAll]
  | cons e embedded ih => simp [TextFreeAll, ih]

theorem isText_of_textFree {o : XmlObj} (h : o.TextFree) : o.isText = false := by
  cases o with
  | word text => rfl
  | var text after => rfl
  | list cls name embedded =>
      cases cls with
      | xmlText => exact absurd rfl h.1
      | xmlList => rfl
      | xmlSynonyms => rfl
      | xmlFact => rfl

theorem map_setAfters {β : Type} {f : XmlObj → β} (h : ∀ after o, f (o.setAfter after) = f o)
    (embedded : List XmlObj) : (setAfters embedded).map f = embedded.map f := by
  refine List.ext_getElem (by simp [setAfters]) fun i _ _ => ?_
  simp [setAfters, h]

/-! ## Parts -/

theorem addAll_eq (embedded : List XmlObj) (o : XmlObj) :
    addAll embedded o = embedded ++ addAll [] o := by
  cases o <;> rfl

theorem foldl_addAll (os embedded : List XmlObj) :
    os.foldl addAll embedded = embedded ++ os.flatMap (addAll []) := by
  induction os generalizing embedded with
  | nil => simp
  | cons o os ih => rw [List.foldl_cons, ih, addAll_eq, List.append_assoc, List.flatMap_cons]

/-- A part is the one list of its name, or a new list: of nothing, or of what they embed. -/
theorem part_cases (x : XmlObj) (tagname : JString) :
    (∃ o, x.parts tagname = [o] ∧ o.isList = true ∧ x.part tagname = o) ∨
      ((∀ o ∈ x.parts tagname, o.isList = false) ∧ x.part tagname = newList) ∨
        ((∀ o, x.parts tagname ≠ [o]) ∧
          x.part tagname = .list .xmlList tagname ((x.parts tagname).flatMap (addAll []))) := by
  unfold XmlObj.part
  split
  · next h => exact Or.inr (Or.inl ⟨by simp [h], rfl⟩)
  · next o h =>
      split
      · next hlist => exact Or.inl ⟨o, h, hlist, rfl⟩
      · next hlist => exact Or.inr (Or.inl ⟨by simpa [h] using hlist, rfl⟩)
  · next h h' => exact Or.inr (Or.inr ⟨h', by rw [foldl_addAll, List.nil_append]⟩)

theorem isList_part (x : XmlObj) (tagname : JString) : (x.part tagname).isList = true := by
  rcases part_cases x tagname with ⟨o, -, hlist, hpart⟩ | ⟨-, hpart⟩ | ⟨-, hpart⟩
  · rw [hpart, hlist]
  · rw [hpart]
    rfl
  · rw [hpart]
    rfl

theorem textFree_part {x : XmlObj} (h : TextFreeAll x.getEmbedded) (tagname : JString) :
    (x.part tagname).TextFree := by
  have hparts : ∀ o ∈ x.parts tagname, o.TextFree :=
    fun o ho => textFreeAll_iff.mp h o (List.mem_filter.mp ho).1
  rcases part_cases x tagname with ⟨o, ho, -, hpart⟩ | ⟨-, hpart⟩ | ⟨-, hpart⟩
  · rw [hpart]
    exact hparts o (by simp [ho])
  · rw [hpart]
    exact ⟨by decide, trivial⟩
  · rw [hpart]
    refine ⟨by decide, textFreeAll_iff.mpr fun e he => ?_⟩
    obtain ⟨o, ho, he⟩ := List.mem_flatMap.mp he
    have hfree := hparts o ho
    cases o with
    | word text => exact List.mem_singleton.mp he ▸ hfree
    | var text after => exact List.mem_singleton.mp he ▸ hfree
    | list cls name embedded => exact textFreeAll_iff.mp hfree.2 e he

end Freehal.Reasoning
