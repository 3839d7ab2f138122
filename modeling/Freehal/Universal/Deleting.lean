import Freehal.Lib.Shifting
import Freehal.Universal.Text
import Mathlib.Logic.Function.Basic

/-!
# Deleting synonyms

`delete_in_first_if_second` of `hal2012-universal.c`. A group is an array of words; the list holds
pointers to the groups, so that a group that is there twice changes in both places. All pointers of
the list are valid, and so are the names.
-/

namespace Freehal.Universal

open Lib (shiftLeft shiftLeft_cons dropLast_shiftLeft)

/-- The array behind each pointer, and the list of pointers. -/
structure Groups where
  words : Nat → List Word
  list : List Nat

/-- Groups with an array each. -/
def Groups.of (groups : List (List Word)) : Groups :=
  ⟨fun g => groups.getD g [], List.range groups.length⟩

/-! ## One round -/

/-- `strlen(...)-3` is unsigned: below three characters it is above every length. -/
def isDeleted (exp : Str) (word : Word) : Bool :=
  strstr word.name exp
    && (decide (3 ≤ word.name.length) && decide (word.name.length - 3 ≤ exp.length))

/-- The loops over `i` and `j`. -/
def findDeleted (exp : Str) (words : Nat → List Word) : Nat → List Nat → Option (Nat × Nat)
  | _, [] => none
  | i, g :: list =>
      match (words g).findIdx? (isDeleted exp) with
      | some j => some (i, j)
      | none => findDeleted exp words (i + 1) list

/-- The words behind the one at `j` move up, and the null pointer with them. -/
def deleteWord (words : List Word) (j : Nat) : List Word :=
  words.take j ++ (shiftLeft (words.drop j)).dropLast

/-- The pointers behind the one at `i` move up, but the null pointer stays where it is. The last
pointer is overwritten by a null pointer. -/
def deleteGroup (list : List Nat) (i : Nat) : List Nat :=
  if i + 1 < list.length then list.take i ++ shiftLeft (list.drop i) else list.take i

/-- A first word is deleted with its group, and so is a last one. -/
def deleteAt (s : Groups) (i j : Nat) : Groups :=
  match s.list[i]? with
  | none => s
  | some g =>
      { words := if j = 0 then s.words else Function.update s.words g (deleteWord (s.words g) j)
        list := if j = 0 ∨ j + 1 = (s.words g).length then deleteGroup s.list i else s.list }

def deleteRounds (exp : Str) : Nat → Groups → Groups
  | 0, s => s
  | timeout + 1, s =>
      match findDeleted exp s.words 0 s.list with
      | none => s
      | some (i, j) => deleteRounds exp timeout (deleteAt s i j)

def deleteInFirstIfSecond (s : Groups) (exp : Str) : Groups :=
  if exp = [] then s else deleteRounds exp 50 s

/-- The groups of `find_in` have arrays of their own. -/
def deleteInFirstIfInSecond (s : Groups) (findIn : List (List Word)) : Groups :=
  findIn.foldl (fun s words => deleteInFirstIfSecond s (joinWords words)) s

variable {exp : Str} {s : Groups} {pre rest : List Nat} {g t : Nat} {a b : List Word} {x : Word}
  {words : Nat → List Word}

/-! ## What a round does -/

/-- No word of the group is deleted. -/
def IsFinished (exp : Str) (words : List Word) : Prop := ∀ w ∈ words, isDeleted exp w = false

theorem findDeleted_finished (hpre : ∀ g ∈ pre, IsFinished exp (words g)) (i : Nat)
    (list : List Nat) :
    findDeleted exp words i (pre ++ list) = findDeleted exp words (i + pre.length) list := by
  induction pre generalizing i with
  | nil => rfl
  | cons g pre ih =>
      have hnone : (words g).findIdx? (isDeleted exp) = none :=
        List.findIdx?_eq_none_iff.mpr (hpre g (by simp))
      have hlen : i + 1 + pre.length = i + (g :: pre).length := by
        rw [List.length_cons]
        omega
      rw [List.cons_append, findDeleted, hnone, ← hlen]
      exact ih (fun h hh => hpre h (by simp [hh])) (i + 1)

theorem deleteRounds_of_finished (h : ∀ g ∈ s.list, IsFinished exp (s.words g)) (t : Nat) :
    deleteRounds exp t s = s := by
  have hnone : findDeleted exp s.words 0 s.list = none := by
    have := findDeleted_finished h 0 []
    rwa [List.append_nil] at this
  cases t with
  | zero => rfl
  | succ t => rw [deleteRounds, hnone]

/-- The list behind a removal: the last pointer is there once more. -/
def removal (rest : List Nat) : List Nat := rest ++ rest.getLast?.toList

theorem deleteGroup_append (pre : List Nat) (g : Nat) (rest : List Nat) :
    deleteGroup (pre ++ g :: rest) pre.length = pre ++ removal rest := by
  unfold deleteGroup removal
  rw [List.take_left, List.drop_left]
  cases rest with
  | nil => simp
  | cons h rest =>
      rw [if_pos (by simp), shiftLeft_cons, List.getLastD_cons, List.getLast?_cons,
        List.getLastD_eq_getLast?]
      rfl

theorem deleteWord_append (a : List Word) (x : Word) (b : List Word) :
    deleteWord (a ++ x :: b) a.length = a ++ b := by
  rw [deleteWord, List.take_left, List.drop_left, dropLast_shiftLeft]

theorem deleteAt_append (hlist : s.list = pre ++ g :: rest) (hwords : s.words g = a ++ x :: b) :
    deleteAt s pre.length a.length =
      { words := if a = [] then s.words else Function.update s.words g (a ++ b)
        list := if a = [] ∨ b = [] then pre ++ removal rest else s.list } := by
  have hg : s.list[pre.length]? = some g := by simp [hlist]
  have hlast : a.length + 1 = (s.words g).length ↔ b = [] := by
    rw [hwords, List.length_append, List.length_cons, ← List.length_eq_zero_iff]
    omega
  simp only [deleteAt, hg, hlast, List.length_eq_zero_iff]
  rw [hwords, deleteWord_append, hlist, deleteGroup_append]

/-! ## The rounds of a group -/

def Groups.withWords (s : Groups) (g : Nat) (words : List Word) : Groups :=
  { s with words := Function.update s.words g words }

@[simp] theorem Groups.withWords_self (s : Groups) (g : Nat) : s.withWords g (s.words g) = s := by
  simp [withWords]

@[simp] theorem Groups.withWords_words (s : Groups) (g : Nat) (ws : List Word) :
    (s.withWords g ws).words g = ws := Function.update_self ..

theorem Groups.withWords_of_ne {h : Nat} (hne : h ≠ g) (ws : List Word) :
    (s.withWords g ws).words h = s.words h := Function.update_of_ne hne ..

@[simp] theorem Groups.withWords_list (s : Groups) (g : Nat) (ws : List Word) :
    (s.withWords g ws).list = s.list := rfl

/-- The group is the first one that may not be finished. -/
structure Reaches (exp : Str) (s : Groups) (pre : List Nat) (g : Nat) (rest : List Nat) : Prop where
  list : s.list = pre ++ g :: rest
  finished : ∀ h ∈ pre, IsFinished exp (s.words h)
  fresh : g ∉ pre

theorem Reaches.withWords (h : Reaches exp s pre g rest) (ws : List Word) :
    Reaches exp (s.withWords g ws) pre g rest where
  list := h.list
  finished k hk := by
    have hne : k ≠ g := by
      rintro rfl
      exact h.fresh hk
    rw [Groups.withWords_of_ne hne]
    exact h.finished k hk
  fresh := h.fresh

/-- A round meets the first word of the group that is deleted. -/
theorem Reaches.round (h : Reaches exp s pre g rest) (ha : IsFinished exp a)
    (hx : isDeleted exp x = true) (t : Nat) :
    deleteRounds exp (t + 1) (s.withWords g (a ++ x :: b)) =
      deleteRounds exp t
        { words := (s.withWords g (if a = [] then a ++ x :: b else a ++ b)).words
          list := if a = [] ∨ b = [] then pre ++ removal rest else s.list } := by
  have hnow := h.withWords (a ++ x :: b)
  have hwords := s.withWords_words g (a ++ x :: b)
  have hfind : findDeleted exp (s.withWords g (a ++ x :: b)).words 0 s.list
      = some (pre.length, a.length) := by
    rw [h.list, findDeleted_finished hnow.finished, findDeleted, hwords,
      Lib.findIdx?_append_cons ha hx, Nat.zero_add]
  rw [deleteRounds, Groups.withWords_list, hfind]
  simp only
  rw [deleteAt_append hnow.list hwords]
  by_cases ha : a = []
  · simp [Groups.withWords, ha]
  · simp [Groups.withWords, ha]

/-- A word in the middle goes alone. -/
theorem Reaches.round_middle (h : Reaches exp s pre g rest) (ha : IsFinished exp a)
    (hx : isDeleted exp x = true) (hane : a ≠ []) (hbne : b ≠ []) (t : Nat) :
    deleteRounds exp (t + 1) (s.withWords g (a ++ x :: b)) =
      deleteRounds exp t (s.withWords g (a ++ b)) := by
  rw [h.round ha hx t, if_neg hane, if_neg (by simp [hane, hbne])]
  rfl

/-! ## A group to its end -/

/-- The group goes with its first word or its last one. -/
def isRemoved (exp : Str) (words : List Word) : Bool :=
  words.head?.any (isDeleted exp) || words.getLast?.any (isDeleted exp)

/-- The rounds up to the end of the group: one for each word that is deleted, but only one if the
first word is. -/
def rounds (exp : Str) (words : List Word) : Nat :=
  if words.head?.any (isDeleted exp) then 1 else words.countP (isDeleted exp)

theorem isRemoved_eq_false {ws : List Word} : isRemoved exp ws = false ↔
    ws.head?.any (isDeleted exp) = false ∧ ws.getLast?.any (isDeleted exp) = false := by
  simp [isRemoved]

theorem rounds_of_head {ws : List Word} (h : ws.head?.any (isDeleted exp) = false) :
    rounds exp ws = ws.countP (isDeleted exp) := by
  simp [rounds, h]

/-- Something stands before the first word that is deleted if that is not the first word. -/
theorem head?_before (hx : isDeleted exp x = true)
    (h : (a ++ x :: b).head?.any (isDeleted exp) = false) :
    a ≠ [] ∧ (a ++ b).head? = (a ++ x :: b).head? := by
  cases a with
  | nil => simp [hx] at h
  | cons y a => exact ⟨by simp, rfl⟩

theorem getLast?_behind (hb : b ≠ []) : (a ++ b).getLast? = (a ++ x :: b).getLast? := by
  obtain ⟨y, b, rfl⟩ := List.exists_cons_of_ne_nil hb
  simp [List.getLast?_cons]

/-- A group that stays loses its words that are deleted. -/
theorem Reaches.rounds_kept (h : Reaches exp s pre g rest) {ws : List Word}
    (hkept : isRemoved exp ws = false) (ht : rounds exp ws ≤ t) :
    deleteRounds exp t (s.withWords g ws) = deleteRounds exp (t - rounds exp ws)
      (s.withWords g (ws.filter fun w => !isDeleted exp w)) := by
  obtain ⟨hhead, hlast⟩ := isRemoved_eq_false.mp hkept
  rw [rounds_of_head hhead] at ht ⊢
  clear hkept
  induction hn : ws.countP (isDeleted exp) generalizing ws t with
  | zero =>
      have hnone : ∀ w ∈ ws, isDeleted exp w = false := by
        simpa using List.countP_eq_zero.mp hn
      rw [List.filter_eq_self.mpr fun w hw => by simp [hnone w hw]]
      rfl
  | succ n ih =>
      obtain ⟨a, x, b, rfl, hx, ha⟩ := Lib.exists_first (by omega :
        0 < ws.countP (isDeleted exp))
      obtain ⟨hane, hhead'⟩ := head?_before hx hhead
      have hbne : b ≠ [] := by
        rintro rfl
        simp [hx] at hlast
      have hcount := @Lib.countP_first _ _ a b x ha hx
      have hcount' := @Lib.countP_append_of_first _ _ a b ha
      obtain ⟨t, rfl⟩ : ∃ u, t = u + 1 := ⟨t - 1, by omega⟩
      have hlast' : (a ++ b).getLast?.any (isDeleted exp) = false := by
        rw [getLast?_behind hbne, hlast]
      rw [h.round_middle ha hx hane hbne, Lib.filter_first hx, Nat.add_sub_add_right]
      exact ih (by omega) (hhead' ▸ hhead) hlast' (by omega)

/-- A group that is removed leaves the last pointer once more. -/
theorem Reaches.rounds_removed (h : Reaches exp s pre g rest) {ws : List Word}
    (hremoved : isRemoved exp ws = true) (ht : rounds exp ws ≤ t) :
    ∃ ws', deleteRounds exp t (s.withWords g ws) = deleteRounds exp (t - rounds exp ws)
      { words := (s.withWords g ws').words, list := pre ++ removal rest } := by
  cases hhead : ws.head?.any (isDeleted exp) with
  | true =>
      obtain ⟨x, b, rfl, hx⟩ : ∃ x b, ws = x :: b ∧ isDeleted exp x = true := by
        cases ws with
        | nil => simp at hhead
        | cons x b => exact ⟨x, b, rfl, by simpa using hhead⟩
      have hrounds : rounds exp (x :: b) = 1 := by simp [rounds, hx]
      obtain ⟨t, rfl⟩ : ∃ u, t = u + 1 := ⟨t - 1, by omega⟩
      have hround := @Reaches.round exp s pre rest g [] b x h (fun w hw => by cases hw) hx t
      rw [hrounds]
      exact ⟨_, hround⟩
  | false =>
      have hlast : ws.getLast?.any (isDeleted exp) = true := by
        simpa [isRemoved, hhead] using hremoved
      rw [rounds_of_head hhead] at ht ⊢
      clear hremoved
      induction hn : ws.countP (isDeleted exp) generalizing ws t with
      | zero =>
          rw [Option.any_eq_true] at hlast
          obtain ⟨w, hw, hdeleted⟩ := hlast
          have hnot := List.countP_eq_zero.mp hn w (List.mem_of_getLast? hw)
          exact absurd hdeleted hnot
      | succ n ih =>
          obtain ⟨a, x, b, rfl, hx, ha⟩ := Lib.exists_first (by omega :
            0 < ws.countP (isDeleted exp))
          obtain ⟨hane, hhead'⟩ := head?_before hx hhead
          have hcount := @Lib.countP_first _ _ a b x ha hx
          have hcount' := @Lib.countP_append_of_first _ _ a b ha
          obtain ⟨t, rfl⟩ : ∃ u, t = u + 1 := ⟨t - 1, by omega⟩
          by_cases hb : b = []
          · subst hb
            obtain rfl : n = 0 := by simpa using hcount.symm.trans hn
            have hround := @Reaches.round exp s pre rest g a [] x h ha hx t
            rw [if_pos (Or.inr rfl)] at hround
            exact ⟨_, hround⟩
          · have hlast' : (a ++ b).getLast?.any (isDeleted exp) = true := by
              rw [getLast?_behind hb, hlast]
            rw [h.round_middle ha hx hane hb, Nat.add_sub_add_right]
            exact ih (by omega) (hhead' ▸ hhead) hlast' (by omega)

/-- Without enough rounds the group stays, and begins as before. -/
theorem Reaches.rounds_exhausted (h : Reaches exp s pre g rest) {ws : List Word}
    (ht : t < rounds exp ws) :
    ∃ ws', ws'.head? = ws.head? ∧ deleteRounds exp t (s.withWords g ws) = s.withWords g ws' := by
  induction t generalizing ws with
  | zero => exact ⟨ws, rfl, rfl⟩
  | succ t ih =>
      have hhead : ws.head?.any (isDeleted exp) = false := by
        cases hhead : ws.head?.any (isDeleted exp) with
        | true =>
            have hone : rounds exp ws = 1 := by simp [rounds, hhead]
            omega
        | false => rfl
      rw [rounds_of_head hhead] at ht
      obtain ⟨a, x, b, rfl, hx, ha⟩ := Lib.exists_first (by omega :
        0 < ws.countP (isDeleted exp))
      obtain ⟨hane, hhead'⟩ := head?_before hx hhead
      have hcount := @Lib.countP_first _ _ a b x ha hx
      have hcount' := @Lib.countP_append_of_first _ _ a b ha
      have hbne : b ≠ [] := by
        rintro rfl
        rw [List.countP_nil] at hcount
        omega
      have hrounds : rounds exp (a ++ b) = (a ++ b).countP (isDeleted exp) :=
        rounds_of_head (hhead' ▸ hhead)
      obtain ⟨ws', hws', hrest⟩ := @ih (a ++ b) (by omega)
      exact ⟨ws', by rw [hws', hhead'], by rw [h.round_middle ha hx hane hbne, hrest]⟩

theorem removal_replicate (n g : Nat) :
    removal (List.replicate (n + 1) g) = List.replicate (n + 2) g := by
  rw [removal, List.getLast?_replicate, if_neg (by omega), Option.toList_some,
    ← List.replicate_succ']

/-- A last group that is there twice keeps its places: each removal only adds its pointer again. -/
theorem Reaches.rounds_copies {n : Nat} (h : Reaches exp s pre g (List.replicate (n + 1) g))
    (t : Nat) (ws : List Word) :
    ∃ ws', ws'.head? = ws.head? ∧ deleteRounds exp t (s.withWords g ws) = s.withWords g ws' := by
  induction t generalizing ws with
  | zero => exact ⟨ws, rfl, rfl⟩
  | succ t ih =>
      by_cases hpos : 0 < ws.countP (isDeleted exp)
      · obtain ⟨a, x, b, rfl, hx, ha⟩ := Lib.exists_first hpos
        have hlist : pre ++ removal (List.replicate (n + 1) g) = s.list := by
          rw [removal_replicate, h.list]
          rfl
        obtain ⟨ws', hws', hrest⟩ := ih (if a = [] then a ++ x :: b else a ++ b)
        refine ⟨ws', ?_, ?_⟩
        · rw [hws']
          cases a with
          | nil => rfl
          | cons y a => rfl
        · rw [h.round ha hx t, hlist, ite_self]
          exact hrest
      · have hfinished : IsFinished exp ws := by
          simpa [IsFinished] using List.countP_eq_zero.mp (Nat.eq_zero_of_not_pos hpos)
        refine ⟨ws, rfl, deleteRounds_of_finished ?_ _⟩
        intro k hk
        rw [Groups.withWords_list, h.list] at hk
        rcases List.mem_append.mp hk with hk | hk
        · exact (h.withWords ws).finished k hk
        · have hkg : k = g := by
            rcases List.mem_cons.mp hk with rfl | hk
            · rfl
            · exact List.eq_of_mem_replicate hk
          rw [hkg, Groups.withWords_words]
          exact hfinished

/-! ## What a deletion never does -/

theorem findDeleted_eq_some {i j k : Nat} {list : List Nat}
    (h : findDeleted exp words k list = some (i, j)) :
    k ≤ i ∧ ∃ g, list[i - k]? = some g ∧ (words g).findIdx? (isDeleted exp) = some j := by
  induction list generalizing k with
  | nil => cases h
  | cons g list ih =>
      rw [findDeleted] at h
      split at h
      · rename_i j' hj
        obtain ⟨rfl, rfl⟩ := Prod.mk.inj (Option.some.inj h)
        exact ⟨Nat.le_refl _, g, by simp, hj⟩
      · obtain ⟨hle, g', hg', hj⟩ := ih h
        have hsub : i - k = (i - (k + 1)) + 1 := by omega
        exact ⟨by omega, g', by rw [hsub, List.getElem?_cons_succ, hg'], hj⟩

/-- A group without a word that is deleted is not touched. -/
theorem words_deleteRounds (h : IsFinished exp (s.words g)) :
    (deleteRounds exp t s).words g = s.words g := by
  induction t generalizing s with
  | zero => rfl
  | succ t ih =>
      rw [deleteRounds]
      split
      · rfl
      · rename_i i j hfind
        obtain ⟨-, k, hk, hj⟩ := findDeleted_eq_some hfind
        have hne : g ≠ k := by
          rintro rfl
          rw [List.findIdx?_eq_none_iff.mpr h] at hj
          cases hj
        have hwords : (deleteAt s i j).words g = s.words g := by
          rw [Nat.sub_zero] at hk
          simp only [deleteAt, hk]
          split
          · rfl
          · exact Function.update_of_ne hne ..
        rw [ih (by rwa [hwords]), hwords]

/-- No pointer and no word is new, and the words of a group keep their order. -/
structure Shrinks (s s' : Groups) : Prop where
  list : s'.list ⊆ s.list
  words : ∀ g, List.Sublist (s'.words g) (s.words g)

theorem Shrinks.refl (s : Groups) : Shrinks s s := ⟨List.Subset.refl _, fun _ => List.Sublist.refl _⟩

theorem Shrinks.trans {s₁ s₂ s₃ : Groups} (h : Shrinks s₁ s₂) (h' : Shrinks s₂ s₃) :
    Shrinks s₁ s₃ :=
  ⟨List.Subset.trans h'.list h.list, fun g => (h'.words g).trans (h.words g)⟩

theorem sublist_deleteWord (words : List Word) (j : Nat) :
    List.Sublist (deleteWord words j) words := by
  rw [deleteWord]
  cases hdrop : words.drop j with
  | nil => simpa [shiftLeft] using List.take_sublist j words
  | cons x l =>
      conv_rhs => rw [← List.take_append_drop j words, hdrop]
      rw [dropLast_shiftLeft]
      exact (List.Sublist.refl _).append (List.sublist_cons_self x l)

theorem deleteGroup_subset (list : List Nat) (i : Nat) : deleteGroup list i ⊆ list := by
  intro g hg
  rw [deleteGroup] at hg
  split at hg
  · rcases List.mem_append.mp hg with hg | hg
    · exact List.mem_of_mem_take hg
    · apply List.mem_of_mem_drop
      cases hdrop : list.drop i with
      | nil =>
          rw [hdrop] at hg
          cases hg
      | cons x l =>
          rw [hdrop, shiftLeft_cons, List.mem_append, List.mem_singleton] at hg
          rcases hg with hg | rfl
          · exact List.mem_cons_of_mem x hg
          · exact List.getLastD_mem_cons
  · exact List.mem_of_mem_take hg

theorem shrinks_deleteAt (s : Groups) (i j : Nat) : Shrinks s (deleteAt s i j) := by
  rw [deleteAt]
  split
  · exact Shrinks.refl s
  · rename_i g hg
    constructor
    · simp only
      split
      · exact deleteGroup_subset s.list i
      · exact List.Subset.refl _
    · intro k
      simp only
      split
      · exact List.Sublist.refl _
      · by_cases hk : k = g
        · rw [hk, Function.update_self]
          exact sublist_deleteWord _ j
        · rw [Function.update_of_ne hk]

theorem shrinks_deleteRounds (exp : Str) (t : Nat) (s : Groups) :
    Shrinks s (deleteRounds exp t s) := by
  induction t generalizing s with
  | zero => exact Shrinks.refl s
  | succ t ih =>
      rw [deleteRounds]
      split
      · exact Shrinks.refl s
      · exact (shrinks_deleteAt s _ _).trans (ih _)

theorem shrinks_deleteInFirstIfSecond (s : Groups) (exp : Str) :
    Shrinks s (deleteInFirstIfSecond s exp) := by
  rw [deleteInFirstIfSecond]
  split
  · exact Shrinks.refl s
  · exact shrinks_deleteRounds exp 50 s

/-- Any number of deletions only takes away. -/
theorem shrinks_deleteInFirstIfInSecond (s : Groups) (findIn : List (List Word)) :
    Shrinks s (deleteInFirstIfInSecond s findIn) := by
  induction findIn generalizing s with
  | nil => exact Shrinks.refl s
  | cons words findIn ih =>
      exact (shrinks_deleteInFirstIfSecond s (joinWords words)).trans (ih _)

end Freehal.Universal
