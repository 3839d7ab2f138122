import Freehal.Records.Dataset

/-!
# The cells of a record

Which cells of a record hold a text, and how many columns the records have together.
-/

namespace Freehal.Records

open Lib (Block)

variable {record record' : Record} {row : List Cell} {text : Str} {texts : List Str}

/-! ## Filling cells -/

/-- The record begins with these cells, and null pointers stand behind them. -/
structure Holds (record : Record) (row : List Cell) : Prop where
  size : record.size = 100
  read : ∀ m : Nat, m < 100 → record.read m = some row[m]?.join

theorem holds_calloc : Holds (Block.calloc 100 none) [] where
  size := Block.size_calloc
  read m hm := Block.read_calloc (by omega) (by omega)

theorem join_append_none (row : List Cell) (n m : Nat) :
    (row ++ List.replicate n none)[m]?.join = row[m]?.join := by
  rw [List.getElem?_append]
  split
  · rfl
  · rw [List.getElem?_eq_none (l := row) (by omega), List.getElem?_replicate]
    split <;> rfl

/-- More null pointers make no difference. -/
theorem holds_append_none {n : Nat} :
    Holds record (row ++ List.replicate n none) ↔ Holds record row := by
  constructor
  · exact fun h => ⟨h.size, fun m hm => by rw [h.read m hm, join_append_none]⟩
  · exact fun h => ⟨h.size, fun m hm => by rw [h.read m hm, join_append_none]⟩

theorem Holds.write (h : Holds record row)
    (hwrite : record.write row.length (some text) = some record') :
    row.length < 100 ∧ Holds record' (row ++ [some text]) := by
  obtain ⟨⟨-, hlt⟩, -⟩ := Block.write_eq_some.mp hwrite
  rw [h.size] at hlt
  refine ⟨by omega, (Block.size_write hwrite).trans h.size, fun m hm => ?_⟩
  by_cases hlast : m = row.length
  · rw [hlast, Block.read_write_self hwrite, List.getElem?_concat_length]
    rfl
  · rw [Block.read_write_of_ne hwrite (by omega), h.read m hm, List.getElem?_append]
    split
    · rfl
    · rw [List.getElem?_eq_none (by omega), List.getElem?_eq_none (by simp; omega)]

theorem Holds.fill (h : Holds record row)
    (hfill : fill record row.length texts = some record') :
    (texts = [] ∨ row.length + texts.length ≤ 100) ∧ Holds record' (row ++ texts.map some) := by
  induction texts generalizing record row with
  | nil =>
      cases hfill
      simpa using h
  | cons text texts ih =>
      rw [Records.fill, Option.bind_eq_bind, Option.bind_eq_some_iff] at hfill
      obtain ⟨next, hwrite, hfill⟩ := hfill
      obtain ⟨hlt, hnext⟩ := h.write hwrite
      have hlength : (row ++ [some text]).length = row.length + 1 := by simp
      rw [← hlength] at hfill
      obtain ⟨hfits, hholds⟩ := ih hnext hfill
      constructor
      · rw [hlength] at hfits
        rw [List.length_cons]
        rcases hfits with rfl | hfits
        · exact Or.inr (by rw [List.length_nil]; omega)
        · exact Or.inr (by omega)
      · simpa using hholds

theorem Holds.exists_fill (h : Holds record row) (hfits : row.length + texts.length ≤ 100) :
    ∃ record', Records.fill record row.length texts = some record' := by
  induction texts generalizing record row with
  | nil => exact ⟨record, rfl⟩
  | cons text texts ih =>
      rw [List.length_cons] at hfits
      obtain ⟨next, hwrite⟩ := @Block.exists_write _ record (some text) (row.length : Nat)
        (by omega) (by rw [h.size]; omega)
      have hlength : (row ++ [some text]).length = row.length + 1 := by simp
      obtain ⟨record', hfill⟩ := ih (h.write hwrite).2 (by rw [hlength]; omega)
      rw [hlength] at hfill
      exact ⟨record', by rw [Records.fill, hwrite]; exact hfill⟩

/-! ## The clauses -/

/-- The number of pointers up to the last fact. -/
def clauseCount : List Pointer → Nat
  | [] => 0
  | p :: list =>
      if clauseCount list = 0 then if p.isFact then 1 else 0 else clauseCount list + 1

def Pointer.cells : Pointer → List Cell
  | .fact f => f.clauseTexts.map some
  | .invalid => List.replicate 6 none

theorem Pointer.length_cells (p : Pointer) : p.cells.length = 6 := by
  cases p <;> rfl

theorem columns_cons (p : Pointer) (list : List Pointer) (d columnCount : Nat) :
    (if clauseCount (p :: list) = 0 then columnCount else 9 + 6 * (d + clauseCount (p :: list))) =
      if clauseCount list = 0 then if p.isFact then 9 + 6 * (d + 1) else columnCount
      else 9 + 6 * (d + 1 + clauseCount list) := by
  rw [clauseCount]
  generalize clauseCount list = n
  cases n with
  | zero => cases p.isFact <;> simp
  | succ n =>
      simp only [Nat.add_one_ne_zero, if_false]
      omega

/-- The cells of clauses, and the number of columns behind the `d` clauses before them. -/
theorem Holds.append {d columnCount columnCount' : Nat} {list : List Pointer}
    (h : Holds record row) (hlength : row.length = 9 + d * 6)
    (happend : appendFrom 9 100 d record columnCount list = some (record', columnCount')) :
    Holds record' (row ++ (list.take (15 - d)).flatMap Pointer.cells) ∧
      columnCount' = if clauseCount (list.take (15 - d)) = 0 then columnCount
        else 9 + 6 * (d + clauseCount (list.take (15 - d))) := by
  induction list generalizing d record columnCount row with
  | nil =>
      cases happend
      simpa [clauseCount] using h
  | cons p list ih =>
      have hnext : (row ++ p.cells).length = 9 + (d + 1) * 6 := by
        rw [List.length_append, p.length_cells]
        omega
      cases p with
      | invalid =>
          obtain ⟨hholds, hcount⟩ := ih (holds_append_none.mpr h) hnext happend
          by_cases hd : d < 15
          · have htake : 15 - d = (15 - (d + 1)) + 1 := by omega
            rw [htake, List.take_succ_cons, List.flatMap_cons, ← List.append_assoc, columns_cons]
            exact ⟨hholds, hcount⟩
          · have hzero : 15 - (d + 1) = 0 := by omega
            rw [hzero] at hholds hcount
            rw [Nat.sub_eq_zero_of_le (by omega)]
            simp only [List.take_zero, List.flatMap_nil, List.append_nil] at hholds ⊢
            exact ⟨holds_append_none.mp hholds, hcount⟩
      | fact f =>
          rw [appendFrom, Option.bind_eq_bind, Option.bind_eq_some_iff] at happend
          obtain ⟨next, hfill, happend⟩ := happend
          rw [← hlength] at hfill
          obtain ⟨hfits, hholds⟩ := h.fill hfill
          have hd : d ≤ 14 := by
            rcases hfits with hnil | hfits
            · cases hnil
            · have : f.clauseTexts.length = 6 := rfl
              omega
          have htake : 15 - d = (15 - (d + 1)) + 1 := by omega
          rw [htake, List.take_succ_cons, List.flatMap_cons, ← List.append_assoc, columns_cons]
          by_cases hlast : 100 ≤ 9 + d * 6 + 6 * 2
          · rw [if_pos hlast] at happend
            cases happend
            have hzero : 15 - (d + 1) = 0 := by omega
            rw [hzero]
            refine ⟨by simpa [Pointer.cells] using hholds, ?_⟩
            simp [clauseCount, Pointer.isFact]
            omega
          · rw [if_neg hlast] at happend
            obtain ⟨hrest, hcount⟩ := ih hholds hnext happend
            refine ⟨hrest, ?_⟩
            have hcolumns : 9 + d * 6 + 6 = 9 + 6 * (d + 1) := by omega
            rw [hcount, hcolumns, Pointer.isFact, if_pos rfl]

theorem Holds.exists_append {d columnCount : Nat} {list : List Pointer} (h : Holds record row)
    (hlength : row.length = 9 + d * 6) (hfew : d + list.length ≤ 15) :
    ∃ r, appendFrom 9 100 d record columnCount list = some r := by
  induction list generalizing d record columnCount row with
  | nil => exact ⟨_, rfl⟩
  | cons p list ih =>
      rw [List.length_cons] at hfew
      have hnext : (row ++ p.cells).length = 9 + (d + 1) * 6 := by
        rw [List.length_append, p.length_cells]
        omega
      cases p with
      | invalid => exact ih (holds_append_none.mpr h) hnext (by omega)
      | fact f =>
          obtain ⟨next, hfill⟩ := @Holds.exists_fill _ _ f.clauseTexts h
            (by rw [hlength, show f.clauseTexts.length = 6 from rfl]; omega)
          obtain ⟨-, hholds⟩ := h.fill hfill
          rw [hlength] at hfill
          rw [appendFrom, hfill]
          simp only [Option.bind_eq_bind, Option.bind_some]
          split
          · exact ⟨_, rfl⟩
          · exact ih hholds hnext (by omega)

/-! ## The records of a list -/

variable (searchClauses : Int → Option (List Pointer))

/-- The clauses for which a record has columns. -/
def shownClauses (f : Fact) : List Pointer := ((searchClauses f.pk).getD []).take 15

def Fact.cells (f : Fact) : List Cell :=
  f.recordTexts.map some ++ (shownClauses searchClauses f).flatMap Pointer.cells

def columns (f : Fact) : Nat := 9 + 6 * clauseCount (shownClauses searchClauses f)

def Pointer.fact? : Pointer → Option Fact
  | .fact f => some f
  | .invalid => none

def factsOf (list : List Pointer) : List Fact := list.filterMap Pointer.fact?

/-- The columns of the widest record, which are nine at least. -/
def widest (n : Nat) (list : List Pointer) : Nat :=
  (factsOf list).foldl (fun n f => max n (columns searchClauses f)) n

/-- The record of a pointer. -/
def Renders : Pointer → Option Record → Prop
  | .fact f, some record => Holds record (f.cells searchClauses)
  | .invalid, none => True
  | _, _ => False

variable {searchClauses}

theorem holds_recordOf {f : Fact} {n : Nat} (h : recordOf searchClauses f = some (record, n)) :
    Holds record (f.cells searchClauses) ∧ n = columns searchClauses f := by
  rw [recordOf, Option.bind_eq_bind, Option.bind_eq_some_iff] at h
  obtain ⟨first, hfill, happend⟩ := h
  obtain ⟨-, hfirst⟩ := holds_calloc.fill hfill
  rw [Fact.cells, columns, shownClauses]
  cases hclauses : searchClauses f.pk with
  | none =>
      rw [hclauses] at happend
      cases happend
      simpa [clauseCount] using hfirst
  | some list =>
      rw [hclauses] at happend
      obtain ⟨hholds, hcount⟩ := @Holds.append _ _ _ 0 _ _ _ hfirst rfl happend
      refine ⟨by simpa using hholds, ?_⟩
      rw [hcount, Nat.zero_add, Option.getD_some, Nat.sub_zero]
      split
      · rename_i hzero
        rw [hzero]
      · rfl

theorem exists_recordOf {f : Fact} (hfew : ((searchClauses f.pk).getD []).length ≤ 15) :
    ∃ r, recordOf searchClauses f = some r := by
  obtain ⟨first, hfill⟩ := @Holds.exists_fill _ _ f.recordTexts holds_calloc
    (by simp [Fact.recordTexts])
  obtain ⟨-, hfirst⟩ := holds_calloc.fill hfill
  have hrecord : recordOf searchClauses f =
      appendOnDatasetRecord 9 100 first (searchClauses f.pk) := by
    rw [recordOf, show (0 : Nat) = ([] : List Cell).length from rfl, hfill]
    rfl
  rw [hrecord]
  cases hclauses : searchClauses f.pk with
  | none => exact ⟨_, rfl⟩
  | some list =>
      rw [hclauses] at hfew
      exact @Holds.exists_append _ _ 0 _ _ hfirst rfl (by simpa using hfew)

theorem renders_recordsFrom {n n' : Nat} {list : List Pointer} {data : List (Option Record)}
    (h : recordsFrom searchClauses n list = some (data, n')) :
    List.Forall₂ (Renders searchClauses) list data ∧ n' = widest searchClauses n list := by
  induction list generalizing n data with
  | nil =>
      cases h
      exact ⟨.nil, rfl⟩
  | cons p list ih =>
      cases p with
      | invalid =>
          rw [recordsFrom, Option.bind_eq_bind, Option.bind_eq_some_iff] at h
          obtain ⟨⟨rest, count⟩, hrest, h⟩ := h
          cases h
          obtain ⟨hrenders, hcount⟩ := ih hrest
          exact ⟨.cons trivial hrenders, hcount⟩
      | fact f =>
          simp only [recordsFrom, Option.bind_eq_bind, Option.bind_eq_some_iff] at h
          obtain ⟨⟨record, m⟩, hrecord, ⟨rest, count⟩, hrest, h⟩ := h
          cases h
          obtain ⟨hholds, rfl⟩ := holds_recordOf hrecord
          obtain ⟨hrenders, hcount⟩ := ih hrest
          refine ⟨.cons hholds hrenders, hcount.trans ?_⟩
          show widest _ _ list = widest _ (max n (columns searchClauses f)) list
          congr 1
          split <;> omega

theorem exists_recordsFrom {n : Nat} {list : List Pointer}
    (hfew : ∀ f ∈ factsOf list, ((searchClauses f.pk).getD []).length ≤ 15) :
    ∃ r, recordsFrom searchClauses n list = some r := by
  induction list generalizing n with
  | nil => exact ⟨_, rfl⟩
  | cons p list ih =>
      cases p with
      | invalid =>
          obtain ⟨r, hrest⟩ := @ih n hfew
          exact ⟨_, by rw [recordsFrom, hrest]; rfl⟩
      | fact f =>
          obtain ⟨⟨record, m⟩, hrecord⟩ := exists_recordOf (hfew f List.mem_cons_self)
          obtain ⟨r, hrest⟩ := @ih (if m > n then m else n)
            fun g hg => hfew g (List.mem_cons_of_mem _ hg)
          refine ⟨(some record :: r.1, r.2), ?_⟩
          simp only [recordsFrom, Option.bind_eq_bind, hrecord, Option.bind_some, hrest]
          rfl

end Freehal.Records
