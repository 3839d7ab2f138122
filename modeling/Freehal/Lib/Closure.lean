import Mathlib.Logic.Relation

/-!
# Equivalence closures of finite relations

A relation is given by a list of pairs. What one more pair joins.
-/

namespace Freehal.Lib

variable {α : Type} {pairs : List (α × α)} {a b x y : α}

/-- The equivalence closure of the pairs. -/
def Tied (pairs : List (α × α)) : α → α → Prop := Relation.EqvGen fun x y => (x, y) ∈ pairs

/-- The element is one of a pair. -/
def Occurs (pairs : List (α × α)) (x : α) : Prop := ∃ p ∈ pairs, x = p.1 ∨ x = p.2

namespace Tied

theorem refl (x : α) : Tied pairs x x := Relation.EqvGen.refl x

theorem symm (h : Tied pairs x y) : Tied pairs y x := Relation.EqvGen.symm _ _ h

theorem trans {z : α} (h : Tied pairs x y) (h' : Tied pairs y z) : Tied pairs x z :=
  Relation.EqvGen.trans _ _ _ h h'

theorem of_mem (h : (x, y) ∈ pairs) : Tied pairs x y := Relation.EqvGen.rel _ _ h

theorem mono {pairs' : List (α × α)} (hsub : pairs ⊆ pairs') (h : Tied pairs x y) :
    Tied pairs' x y :=
  Relation.EqvGen.mono (fun _ _ h => hsub h) _ _ h

/-- Two different elements that are joined both occur. -/
theorem occurs (h : Tied pairs x y) : x = y ∨ Occurs pairs x ∧ Occurs pairs y := by
  induction h with
  | rel x y h => exact Or.inr ⟨⟨_, h, Or.inl rfl⟩, ⟨_, h, Or.inr rfl⟩⟩
  | refl x => exact Or.inl rfl
  | symm x y _ ih => exact ih.imp Eq.symm And.symm
  | trans x y z _ _ ih ih' =>
      rcases ih with rfl | ih
      · exact ih'
      · rcases ih' with rfl | ih'
        · exact Or.inr ih
        · exact Or.inr ⟨ih.1, ih'.2⟩

theorem eq_of_not_occurs (h : Tied pairs x y) (hx : ¬ Occurs pairs x) : y = x := by
  rcases h.occurs with rfl | h
  · rfl
  · exact absurd h.1 hx

/-- What is joined after one more pair was joined before, or through that pair. -/
theorem append_singleton : Tied (pairs ++ [(a, b)]) x y ↔ Tied pairs x y
    ∨ Tied pairs x a ∧ Tied pairs b y ∨ Tied pairs x b ∧ Tied pairs a y := by
  constructor
  · intro h
    induction h with
    | rel x y h =>
        rcases List.mem_append.mp h with h | h
        · exact Or.inl (of_mem h)
        · cases List.mem_singleton.mp h
          exact Or.inr (Or.inl ⟨refl _, refl _⟩)
    | refl x => exact Or.inl (refl x)
    | symm x y _ ih =>
        rcases ih with h | ⟨h, h'⟩ | ⟨h, h'⟩
        · exact Or.inl h.symm
        · exact Or.inr (Or.inr ⟨h'.symm, h.symm⟩)
        · exact Or.inr (Or.inl ⟨h'.symm, h.symm⟩)
    | trans x y z _ _ ih ih' =>
        rcases ih with h | ⟨h, h'⟩ | ⟨h, h'⟩
        · rcases ih' with k | ⟨k, k'⟩ | ⟨k, k'⟩
          · exact Or.inl (h.trans k)
          · exact Or.inr (Or.inl ⟨h.trans k, k'⟩)
          · exact Or.inr (Or.inr ⟨h.trans k, k'⟩)
        · rcases ih' with k | ⟨k, k'⟩ | ⟨k, k'⟩
          · exact Or.inr (Or.inl ⟨h, h'.trans k⟩)
          · exact Or.inr (Or.inl ⟨h, k'⟩)
          · exact Or.inl (h.trans k')
        · rcases ih' with k | ⟨k, k'⟩ | ⟨k, k'⟩
          · exact Or.inr (Or.inr ⟨h, h'.trans k⟩)
          · exact Or.inl (h.trans k')
          · exact Or.inr (Or.inr ⟨h, k'⟩)
  · intro h
    have hab : Tied (pairs ++ [(a, b)]) a b := of_mem (by simp)
    rcases h with h | ⟨h, h'⟩ | ⟨h, h'⟩
    · exact h.mono (List.subset_append_left _ _)
    · exact ((h.mono (List.subset_append_left _ _)).trans hab).trans
        (h'.mono (List.subset_append_left _ _))
    · exact ((h.mono (List.subset_append_left _ _)).trans hab.symm).trans
        (h'.mono (List.subset_append_left _ _))

end Tied

theorem occurs_append_singleton :
    Occurs (pairs ++ [(a, b)]) x ↔ Occurs pairs x ∨ x = a ∨ x = b := by
  simp [Occurs, or_and_right, exists_or]

end Freehal.Lib
