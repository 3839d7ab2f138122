import Mathlib.Data.List.Count
import Mathlib.Data.List.Infix
import Mathlib.Data.List.Sections
import Mathlib.Data.Multiset.Bind

/-!
# Lists

Beginnings, last elements and first results; one choice from each of several lists.
-/

namespace Freehal.Lib

theorem prefix_append_cases {α : Type} {t a b : List α} (h : t <+: a ++ b) :
    t <+: a ∨ ∃ t', t = a ++ t' ∧ t' <+: b := by
  rcases List.prefix_or_prefix_of_prefix h (List.prefix_append a b) with ht | ⟨t', rfl⟩
  · exact Or.inl ht
  · exact Or.inr ⟨t', rfl, (List.prefix_append_right_inj a).mp h⟩

theorem filterMap_range_getElem? (l : List Nat) (n : Nat) :
    (List.range n).filterMap (fun k => l[k]?) = l.take n := by
  induction n with
  | zero => rfl
  | succ n ih =>
      rw [List.range_succ, List.filterMap_append, ih, List.take_add_one]
      cases h : l[n]? <;> simp [h]

/-- Each element of a list is among the first `n` once exactly when there are no others. -/
theorem count_take_eq {l : List Nat} (h : l.Nodup) (n : Nat) :
    (∀ c, (l.take n).count c = if c ∈ l then 1 else 0) ↔ l.length ≤ n := by
  constructor
  · intro hc
    by_contra hlt
    have hlt : n < l.length := by omega
    have hmem : l[n] ∈ l.take n := by
      apply List.count_pos_iff.mp
      rw [hc, if_pos (List.getElem_mem hlt)]
      exact Nat.one_pos
    obtain ⟨k, hk, he⟩ := List.mem_take_iff_getElem.mp hmem
    have := (List.getElem_inj h).mp he
    omega
  · intro hle c
    rw [List.take_of_length_le hle, h.count]

theorem exists_last {α : Type} {p : α → Bool} {l : List α} (h : ∃ a ∈ l, p a = true) :
    ∃ l₁ a l₂, l = l₁ ++ a :: l₂ ∧ p a = true ∧ ∀ b ∈ l₂, p b = false := by
  induction l with
  | nil => simp at h
  | cons a l ih =>
      by_cases hl : ∃ b ∈ l, p b = true
      · obtain ⟨l₁, b, l₂, rfl, hb, hlast⟩ := ih hl
        exact ⟨a :: l₁, b, l₂, rfl, hb, hlast⟩
      · have hnone : ∀ b ∈ l, p b = false := by simpa using hl
        obtain ⟨b, hb, hpb⟩ := h
        rcases List.mem_cons.mp hb with rfl | hb
        · exact ⟨[], b, l, rfl, hpb, hnone⟩
        · rw [hnone b hb] at hpb
          cases hpb

/-- At each place both lists have an element, or neither has. -/
theorem forall₂_getElem? {α β : Type} {R : α → β → Prop} {l : List α} {l' : List β}
    (h : List.Forall₂ R l l') (i : Nat) :
    (l[i]? = none ∧ l'[i]? = none) ∨ ∃ a b, l[i]? = some a ∧ l'[i]? = some b ∧ R a b := by
  induction h generalizing i with
  | nil => exact Or.inl ⟨rfl, rfl⟩
  | cons hab _ ih =>
      cases i with
      | zero => exact Or.inr ⟨_, _, rfl, rfl, hab⟩
      | succ i => exact ih i

/-! ## First results -/

theorem findSome?_flatMap {α β γ : Type} (f : β → Option γ) (g : α → List β) (l : List α) :
    (l.flatMap g).findSome? f = l.findSome? fun x => (g x).findSome? f := by
  induction l with
  | nil => rfl
  | cons x l ih =>
      rw [List.flatMap_cons, List.findSome?_append, ih, List.findSome?_cons]
      cases (g x).findSome? f <;> rfl

theorem findSome?_congr {α β : Type} {f g : α → Option β} {l : List α} (h : ∀ x ∈ l, f x = g x) :
    l.findSome? f = l.findSome? g := by
  induction l with
  | nil => rfl
  | cons x l ih =>
      rw [List.findSome?_cons, List.findSome?_cons, h x List.mem_cons_self,
        ih fun y hy => h y (List.mem_cons_of_mem _ hy)]

theorem find?_congr {α : Type} {p q : α → Bool} {l : List α} (h : ∀ x ∈ l, p x = q x) :
    l.find? p = l.find? q := by
  induction l with
  | nil => rfl
  | cons a l ih =>
      rw [List.find?_cons, List.find?_cons, h a (by simp), ih fun x hx => h x (by simp [hx])]

theorem findSome?_first {α β : Type} {f : α → Option β} {l rest : List α} {b : β} (hne : l ≠ [])
    (h : ∀ x ∈ l, f x = some b) : (l ++ rest).findSome? f = some b := by
  cases l with
  | nil => exact absurd rfl hne
  | cons x l => rw [List.cons_append, List.findSome?_cons, h x List.mem_cons_self]

/-! ## Choices -/

/-- Two loops may change places. -/
theorem flatMap_flatMap_perm {α β γ : Type} (l : List α) (m : List β) (f : α → β → List γ) :
    (l.flatMap fun a => m.flatMap fun b => f a b).Perm
      (m.flatMap fun b => l.flatMap fun a => f a b) := by
  apply Multiset.coe_eq_coe.mp
  have h := @Multiset.bind_bind α β γ l m fun a b => f a b
  simpa only [Multiset.coe_bind] using h

/-- The choices so far, each with one more element of the list. -/
def choose {α : Type} (choices : List (List α)) (l : List α) : List (List α) :=
  l.flatMap fun a => choices.map (· ++ [a])

theorem foldl_choose_perm {α : Type} (ls : List (List α)) (choices : List (List α)) :
    (ls.foldl choose choices).Perm (choices.flatMap fun c => ls.sections.map (c ++ ·)) := by
  induction ls generalizing choices with
  | nil => simp
  | cons l ls ih =>
      have hstep : (choose choices l).flatMap (fun c => ls.sections.map (c ++ ·)) =
          l.flatMap fun a => choices.flatMap fun c => ls.sections.map (c ++ a :: ·) := by
        rw [choose, List.flatMap_assoc]
        congr 1
        funext a
        rw [List.flatMap_map]
        simp
      have hswap : ∀ c : List α, (l.flatMap fun a => ls.sections.map (c ++ a :: ·)).Perm
          ((l :: ls).sections.map (c ++ ·)) := by
        intro c
        have hcons := flatMap_flatMap_perm l ls.sections fun a s => [c ++ a :: s]
        simpa [List.sections, List.flatMap_assoc, List.map_eq_flatMap] using hcons
      have hloops := ih (choose choices l)
      rw [hstep] at hloops
      refine (hloops.trans (flatMap_flatMap_perm l choices _)).trans ?_
      exact List.Perm.flatMap_left choices fun c _ => hswap c

/-! ## Lists with gaps -/

theorem filterMap_map_filter {α : Type} (keep : α → Bool) (list : List (Option α)) :
    (list.map (Option.filter keep)).filterMap id = (list.filterMap id).filter keep := by
  induction list with
  | nil => rfl
  | cons p list ih =>
      cases p with
      | none => exact ih
      | some a =>
          have hcons : ∀ list, (some a :: list).filterMap id = a :: list.filterMap id :=
            fun list => rfl
          rw [List.map_cons, Option.filter_some, hcons]
          by_cases ha : keep a = true
          · rw [if_pos ha, hcons, List.filter_cons_of_pos ha, ih]
          · rw [if_neg ha, List.filterMap_cons_none rfl, List.filter_cons_of_neg ha, ih]

theorem some_mem_map_filter {α : Type} {keep : α → Bool} {list : List (Option α)} {a : α} :
    some a ∈ list.map (Option.filter keep) ↔ some a ∈ list ∧ keep a = true := by
  constructor
  · intro h
    obtain ⟨p, hp, heq⟩ := List.mem_map.mp h
    obtain ⟨rfl, ha⟩ := Option.filter_eq_some_iff.mp heq
    exact ⟨hp, ha⟩
  · rintro ⟨hmem, ha⟩
    exact List.mem_map.mpr ⟨some a, hmem, Option.filter_eq_some_iff.mpr ⟨rfl, ha⟩⟩

end Freehal.Lib
