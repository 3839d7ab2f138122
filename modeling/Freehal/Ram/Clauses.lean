import Freehal.Lib.Lists
import Freehal.Ram.Store

/-!
# The clauses of a fact

A search for the clauses of a key against the calls that added clauses with it.
-/

namespace Freehal.Ram

open Universal (Word)
open Lib (Block)

/-! ## What a search should give -/

/-- The clauses that were added with this key. -/
def Log.clausesAt (log : Log) (rel : Int) : List Nat :=
  log.filterMap fun call =>
    match call with
    | (.clause r _, p) => if r = rel then p else none
    | (.fact _ _, _) => none

/-- The clauses in a returned array. -/
def listed : Option (Block Pointer) → List Nat
  | none => []
  | some clauses => clauses.cells.filterMap Option.join

/-- No slot is read that nothing was written to, and the clauses are returned once each. -/
def SearchComplete (is : List Insertion) (rel : Int) : Prop :=
  ∃ s log found, runInsertions is = some (s, log) ∧ ramSearchClauses rel s = some found ∧
    ∀ clause, (listed found).count clause = if clause ∈ log.clausesAt rel then 1 else 0

/-! ## What the insertions have to meet -/

def Insertion.isAccepted (i : Insertion) : Bool := !i.columns.isRejected

def Insertion.addsClauseAt (rel : Int) : Insertion → Bool
  | .fact _ _ => false
  | .clause r c => decide (r = rel) && !c.isRejected

/-- The key of a clause is one of the `n` keys that are given, or the one it gets itself. -/
def Insertion.IsInserted (n : Nat) : Insertion → Prop
  | .fact _ _ => True
  | .clause rel c => c.isRejected = false → 0 ≤ rel ∧ rel ≤ n

/-- The number of facts after the insertion. -/
def Insertion.countAfter (i : Insertion) (n : Nat) : Nat := if i.isAccepted then n + 1 else n

def Insertable : Nat → List Insertion → Prop
  | _, [] => True
  | n, i :: is => i.IsInserted n ∧ Insertable (i.countAfter n) is

@[simp] theorem clausesAt_nil (rel : Int) : Log.clausesAt [] rel = [] := rfl

@[simp] theorem clausesAt_append (log log' : Log) (rel : Int) :
    Log.clausesAt (log ++ log') rel = log.clausesAt rel ++ log'.clausesAt rel := by
  simp [Log.clausesAt]

/-! ## The slots of an array of clauses -/

/-- The first twenty clauses are in the first slots, and the last slot is free up to there. -/
structure Slots (b : Block Pointer) (l : List Nat) : Prop where
  size : b.size = 21
  first : ∀ k : Nat, k < 20 → b.read k = some l[k]?
  last : ∃ p, b.read 20 = some p ∧ (l.length ≤ 20 → p = none)

theorem slots_calloc : Slots (Block.calloc 21 none) [] where
  size := Block.size_calloc
  first := fun k hk => by rw [Block.read_calloc (by omega) (by omega)]; rfl
  last := ⟨none, Block.read_calloc (by omega) (by omega), fun _ => rfl⟩

variable {b : Block Pointer} {l : List Nat}

theorem Slots.freePos_eq (h : Slots b l) {left : Nat} (hl : left ≤ 20)
    (hlen : 20 - left ≤ l.length) : freePos b left = some (min l.length 20) := by
  induction left with
  | zero =>
      obtain ⟨p, hp, -⟩ := h.last
      simp [freePos, hp]
      omega
  | succ left ih =>
      have hpos : (20 : Int) - ((left + 1 : Nat) : Int) = ((20 - (left + 1) : Nat) : Int) := by
        omega
      have hread := h.first (20 - (left + 1)) (by omega)
      cases hget : l[20 - (left + 1)]? with
      | none =>
          have hle := List.getElem?_eq_none_iff.mp hget
          simp only [freePos, hpos, hread, hget, Option.bind_eq_bind, Option.bind_some,
            Option.pure_def, Option.some.injEq]
          omega
      | some c =>
          have hlt := (List.getElem?_eq_some_iff.mp hget).1
          simp only [freePos, hpos, hread, hget, Option.bind_eq_bind, Option.bind_some]
          exact ih (by omega) (by omega)

/-- A further clause goes to the next slot, or to the last one. -/
theorem Slots.push (h : Slots b l) (a : Nat) :
    ∃ c, b.write (min l.length 20 : Nat) (some a) = some c ∧ Slots c (l ++ [a]) := by
  obtain ⟨c, hc⟩ := Block.exists_write (b := b) (i := (min l.length 20 : Nat)) (a := some a)
    (by omega) (by rw [h.size]; omega)
  refine ⟨c, hc, ?_, ?_, ?_⟩
  · rw [Block.size_write hc, h.size]
  · intro k hk
    by_cases hkl : k = l.length
    · have hself := Block.read_write_self hc
      rw [show min l.length 20 = k by omega] at hself
      rw [hself, hkl, List.getElem?_concat_length]
    · rw [Block.read_write_of_ne hc (by omega), h.first k hk]
      by_cases hlt : k < l.length
      · rw [List.getElem?_append_left hlt]
      · rw [List.getElem?_eq_none (by omega), List.getElem?_eq_none (by simp; omega)]
  · by_cases hlen : l.length < 20
    · obtain ⟨p, hp, hnone⟩ := h.last
      refine ⟨p, ?_, fun _ => hnone (by omega)⟩
      rw [Block.read_write_of_ne hc (by omega), hp]
    · have hself := Block.read_write_self hc
      rw [show ((min l.length 20 : Nat) : Int) = 20 by omega] at hself
      exact ⟨some a, hself, fun hle => by simp at hle; omega⟩

/-! ## Copying the slots -/

theorem Slots.copy_eq (h : Slots b l) {left : Nat} {copy : Block Pointer} (hl : left ≤ 20)
    (hcopy : Slots copy (l.take (20 - left))) :
    ∃ c, copyClauses b left copy = some c ∧ Slots c (l.take 20) := by
  induction left generalizing copy with
  | zero => exact ⟨copy, rfl, hcopy⟩
  | succ left ih =>
      have hpos : (20 : Int) - ((left + 1 : Nat) : Int) = ((20 - (left + 1) : Nat) : Int) := by
        omega
      have hread := h.first (20 - (left + 1)) (by omega)
      obtain ⟨c, hc⟩ := Block.exists_write (b := copy) (i := (20 - (left + 1) : Nat))
        (a := l[20 - (left + 1)]?) (by omega) (by rw [hcopy.size]; omega)
      have hslots : Slots c (l.take (20 - left)) := by
        refine ⟨by rw [Block.size_write hc, hcopy.size], ?_, ?_⟩
        · intro k hk
          by_cases hkl : k = 20 - (left + 1)
          · subst hkl
            rw [Block.read_write_self hc, List.getElem?_take_of_lt (by omega)]
          · rw [Block.read_write_of_ne hc (by omega), hcopy.first k hk, List.getElem?_take,
              List.getElem?_take]
            by_cases hlt : k < 20 - (left + 1)
            · rw [if_pos hlt, if_pos (by omega)]
            · rw [if_neg hlt, if_neg (by omega)]
        · obtain ⟨p, hp, hnone⟩ := hcopy.last
          refine ⟨p, ?_, fun _ => hnone (by simp; omega)⟩
          rw [Block.read_write_of_ne hc (by omega), hp]
      obtain ⟨d, hd, hds⟩ := ih (by omega) hslots
      refine ⟨d, ?_, hds⟩
      simp only [copyClauses, hpos, hread, hc, Option.bind_eq_bind, Option.bind_some, hd]

/-- The cells of an array that holds twenty clauses at most. -/
theorem Slots.cells_eq (h : Slots b l) (hl : l.length ≤ 20) :
    b.cells = (List.range 21).map fun k : Nat => some l[k]? := by
  obtain ⟨p, hp, hnone⟩ := h.last
  rw [Block.cells_eq_map_read, h.size]
  apply List.map_congr_left
  intro k hk
  have hk := List.mem_range.mp hk
  by_cases hlt : k < 20
  · exact h.first k hlt
  · obtain rfl : k = 20 := by omega
    rw [List.getElem?_eq_none hl]
    exact hp.trans (by rw [hnone hl])

/-- Such an array lists its clauses. -/
theorem Slots.listed_eq (h : Slots b l) (hl : l.length ≤ 20) : listed (some b) = l := by
  have hjoin : (Option.join ∘ fun k : Nat => some l[k]?) = fun k : Nat => l[k]? := rfl
  rw [listed, h.cells_eq hl, List.filterMap_map, hjoin, Lib.filterMap_range_getElem?,
    List.take_of_length_le (by omega)]

end Freehal.Ram
