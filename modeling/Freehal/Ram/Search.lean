import Freehal.Lib.Collect
import Freehal.Ram.Store

/-!
# Searching the net

`ram_search_facts_for_words_in_net` goes over the facts of each word. The net has the facts that
`ram_add_fact` adds, under the first hundred words of each of their lists.
-/

namespace Freehal.Ram

open Universal (Word Config isATrivialWord)
open Lib (collect)

section

variable (cfg : Config) (s : Engine) (group : Nat → List Word) (limit : Int)

/-- The loop over `m`: the words of one array, up to one without a name. -/
def searchGroup (facts : List Nat) : List Word → List Nat
  | [] => facts
  | word :: words =>
      if facts.length < limit ∧ word.name ≠ [] then
        if isATrivialWord cfg word.name then searchGroup facts words
        else searchGroup (collect limit facts (s.relatedFacts word)) words
      else facts

/-- The loop over `n`. An array that is there twice is passed over, unless its other place is the one
just before. -/
def searchGroups (facts done : List Nat) : List Nat → List Nat
  | [] => facts
  | pointer :: pointers =>
      if facts.length < limit then
        if pointer ∈ done.dropLast then searchGroups facts (done ++ [pointer]) pointers
        else
          searchGroups (searchGroup cfg s limit facts (group pointer)) (done ++ [pointer]) pointers
      else facts

/-- The pointers up to the null pointer, and the words behind each. The search starts at 0. -/
def ramSearchFactsForWordsInNet (words : List Nat) : List Nat :=
  searchGroups cfg s group limit [] [] words

end

variable {cfg : Config} {s s' : Engine} {group : Nat → List Word} {limit : Int}
  {facts done words : List Nat} {log : Log} {a : Nat} {w : Word}

/-! ## What the loops collect -/

/-- What holds of the facts collected so far. -/
structure Collected (s : Engine) (limit : Int) (P : Word → Prop) (facts : List Nat) : Prop where
  nodup : facts.Nodup
  length : (facts.length : Int) ≤ max limit 0
  related : ∀ a ∈ facts, ∃ w, P w ∧ a ∈ s.relatedFacts w

theorem Collected.nil (P : Word → Prop) : Collected s limit P [] where
  nodup := List.nodup_nil
  length := by simp only [List.length_nil]; omega
  related a ha := by cases ha

theorem Collected.searchGroup {P : Word → Prop} (h : Collected s limit P facts) {ws : List Word}
    (hws : ∀ w ∈ ws, isATrivialWord cfg w.name = false → P w) :
    Collected s limit P (searchGroup cfg s limit facts ws) := by
  induction ws generalizing facts with
  | nil => exact h
  | cons word ws ih =>
      have hrest : ∀ w ∈ ws, isATrivialWord cfg w.name = false → P w :=
        fun w hw => hws w (by simp [hw])
      rw [Ram.searchGroup]
      split
      · split
        · exact ih h hrest
        · case isFalse htrivial =>
            refine ih ⟨Lib.nodup_collect h.nodup, Lib.length_collect_le h.length, ?_⟩ hrest
            intro a ha
            rcases Lib.mem_collect ha with ha | ha
            · exact h.related a ha
            · exact ⟨word, hws word (by simp) (by simpa using htrivial), ha⟩
      · exact h

theorem Collected.searchGroups {P : Word → Prop} (h : Collected s limit P facts)
    (hwords : ∀ p ∈ words, ∀ w ∈ group p, isATrivialWord cfg w.name = false → P w) :
    Collected s limit P (searchGroups cfg s group limit facts done words) := by
  induction words generalizing facts done with
  | nil => exact h
  | cons pointer pointers ih =>
      have hrest : ∀ p ∈ pointers, ∀ w ∈ group p, isATrivialWord cfg w.name = false → P w :=
        fun p hp => hwords p (by simp [hp])
      rw [Ram.searchGroups]
      split
      · split
        · exact ih h hrest
        · exact ih (h.searchGroup (hwords pointer (by simp))) hrest
      · exact h

/-! ## What they do not leave out -/

theorem prefix_searchGroup (facts : List Nat) (ws : List Word) :
    facts <+: searchGroup cfg s limit facts ws := by
  induction ws generalizing facts with
  | nil => exact List.prefix_refl facts
  | cons word ws ih =>
      rw [searchGroup]
      split
      · split
        · exact ih facts
        · exact (Lib.prefix_collect limit facts _).trans (ih _)
      · exact List.prefix_refl facts

theorem prefix_searchGroups (facts done words : List Nat) :
    facts <+: searchGroups cfg s group limit facts done words := by
  induction words generalizing facts done with
  | nil => exact List.prefix_refl facts
  | cons pointer pointers ih =>
      rw [searchGroups]
      split
      · split
        · exact ih facts _
        · exact (prefix_searchGroup facts _).trans (ih _ _)
      · exact List.prefix_refl facts

theorem mem_searchGroup {ws : List Word} (hnames : ∀ w ∈ ws, w.name ≠ [])
    (hroom : ((searchGroup cfg s limit facts ws).length : Int) < limit) (hw : w ∈ ws)
    (htrivial : isATrivialWord cfg w.name = false) (ha : a ∈ s.relatedFacts w) :
    a ∈ searchGroup cfg s limit facts ws := by
  induction ws generalizing facts with
  | nil => cases hw
  | cons word ws ih =>
      have hlt : (facts.length : Int) < limit ∧ word.name ≠ [] := by
        have := (@prefix_searchGroup cfg s limit facts (word :: ws)).length_le
        exact ⟨by omega, hnames word (by simp)⟩
      have hrest : ∀ w ∈ ws, w.name ≠ [] := fun w hw => hnames w (by simp [hw])
      rw [searchGroup, if_pos hlt] at hroom ⊢
      rcases List.mem_cons.mp hw with rfl | hw
      · rw [if_neg (by simp [htrivial])] at hroom ⊢
        have hprefix := @prefix_searchGroup cfg s limit (collect limit facts (s.relatedFacts w)) ws
        have := hprefix.length_le
        exact hprefix.subset (Lib.mem_collect_of_room (by omega) ha)
      · split at hroom
        · case isTrue h =>
            rw [if_pos h]
            exact ih hrest hroom hw
        · case isFalse h =>
            rw [if_neg h]
            exact ih hrest hroom hw

/-- All facts of the words behind the pointer are there. -/
def Covered (cfg : Config) (s : Engine) (group : Nat → List Word) (facts : List Nat) (p : Nat) :
    Prop :=
  ∀ w ∈ group p, isATrivialWord cfg w.name = false → ∀ a ∈ s.relatedFacts w, a ∈ facts

theorem covered_searchGroups (hnames : ∀ p ∈ words, ∀ w ∈ group p, w.name ≠ [])
    (hroom : ((searchGroups cfg s group limit facts done words).length : Int) < limit)
    (hdone : ∀ p ∈ done, Covered cfg s group facts p) :
    ∀ p ∈ done ++ words, Covered cfg s group (searchGroups cfg s group limit facts done words) p := by
  induction words generalizing facts done with
  | nil =>
      rw [List.append_nil]
      exact hdone
  | cons pointer pointers ih =>
      have hlt : (facts.length : Int) < limit := by
        have := (@prefix_searchGroups cfg s group limit facts done (pointer :: pointers)).length_le
        omega
      have hrest : ∀ p ∈ pointers, ∀ w ∈ group p, w.name ≠ [] := fun p hp => hnames p (by simp [hp])
      have happend : done ++ pointer :: pointers = (done ++ [pointer]) ++ pointers := by simp
      rw [searchGroups, if_pos hlt] at hroom ⊢
      rw [happend]
      by_cases hold : pointer ∈ done.dropLast
      · rw [if_pos hold] at hroom ⊢
        apply ih hrest hroom
        intro p hp
        rcases List.mem_append.mp hp with hp | hp
        · exact hdone p hp
        · rw [List.mem_singleton.mp hp]
          exact hdone pointer (List.dropLast_subset done hold)
      · rw [if_neg hold] at hroom ⊢
        apply ih hrest hroom
        have hprefix := @prefix_searchGroup cfg s limit facts (group pointer)
        have hroom' := (@prefix_searchGroups cfg s group limit
          (searchGroup cfg s limit facts (group pointer)) (done ++ [pointer]) pointers).length_le
        intro p hp
        rcases List.mem_append.mp hp with hp | hp
        · exact fun w hw htrivial a ha => hprefix.subset (hdone p hp w hw htrivial a ha)
        · rw [List.mem_singleton.mp hp]
          exact fun w hw htrivial a ha =>
            mem_searchGroup (hnames pointer (by simp)) (by omega) hw htrivial ha

end Freehal.Ram
