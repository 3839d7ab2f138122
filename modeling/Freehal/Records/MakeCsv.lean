import Freehal.Lib.Buffer
import Freehal.Records.Shape

/-!
# The buffer of a table

`hal2012_make_csv` of `hal2012-talk.cpp`. It fails where it reads behind the cells of a record or
writes behind the buffer.
-/

namespace Freehal.Records

open Lib (Appends appends_foldlM appends_some appends_strcat fits isSome_fits strcat)

/-! ## Size and contents -/

/-- The loop over the cells of a record, while the size is computed. -/
def addCell (record : Record) (size m : Nat) : Option Nat := do
  match ← record.read m with
  | some text => return size + (text.length + 10)
  | none => return size

def addRecord (columnCount size : Nat) : Option Record → Option Nat
  | none => some size
  | some record => (List.range columnCount).foldlM (addCell record) size

/-- The bytes that are allocated. -/
def Dataset.csvSize (set : Dataset) : Option Nat :=
  set.data.foldlM (addRecord set.columnCount) (4096 + 1 * set.size)

def copyText (size : Nat) (csv : Str) : Cell → Option Str
  | some text => strcat size csv text
  | none => some csv

/-- The loop over the cells of a record, while they are copied. -/
def copyCell (size columnCount : Nat) (record : Record) (csv : Str) (m : Nat) : Option Str := do
  let csv ← copyText size csv (← record.read m)
  if m + 1 < columnCount then strcat size csv ['^'] else some csv

def copyRecord (size columnCount : Nat) (csv : Str) : Option Record → Option Str
  | none => some csv
  | some record => do
      match ← record.read 0 with
      | some (_ :: _) =>
          let csv ← (List.range columnCount).foldlM (copyCell size columnCount record) csv
          strcat size csv ['\n']
      | _ => return csv

def hal2012MakeCsv (set : Dataset) : Option Str :=
  if set.err = tooMuch then some "/err:TOOMUCH\n".toList
  else do
    let size ← set.csvSize
    set.data.foldlM (copyRecord size set.columnCount) []

/-! ## What is copied -/

variable {record : Record} {row : List Cell} {n size : Nat}

/-- The text of a cell with the separator behind it. -/
def cellText (n : Nat) (row : List Cell) (m : Nat) : Str :=
  row[m]?.join.getD [] ++ if m + 1 < n then ['^'] else []

def rowText (n : Nat) (row : List Cell) : Str :=
  (List.range n).flatMap (cellText n row) ++ ['\n']

theorem appends_copyCell (h : Holds record row) {m : Nat} (hm : m < 100) :
    Appends size (copyCell size n record · m) (cellText n row m) := by
  have hseparator : Appends size (fun csv => if m + 1 < n then strcat size csv ['^'] else some csv)
      (if m + 1 < n then ['^'] else []) := by
    split
    · exact appends_strcat _
    · exact appends_some
  have hcell : Appends size (copyText size · row[m]?.join) (row[m]?.join.getD []) := by
    cases row[m]?.join with
    | none => exact appends_some
    | some text => exact appends_strcat text
  have hcopy : (copyCell size n record · m) = fun csv => (copyText size csv row[m]?.join).bind
      fun csv => if m + 1 < n then strcat size csv ['^'] else some csv := by
    funext csv
    rw [copyCell, h.read m hm]
    rfl
  rw [hcopy]
  exact hcell.bind hseparator

theorem appends_copyRecord (h : Holds record row) (hn : n ≤ 100)
    (hfirst : ∃ c text, row[0]? = some (some (c :: text))) :
    Appends size (copyRecord size n · (some record)) (rowText n row) := by
  have hcells : Appends size (fun csv => (List.range n).foldlM (copyCell size n record) csv)
      ((List.range n).flatMap (cellText n row)) :=
    appends_foldlM fun m hm => appends_copyCell h (by rw [List.mem_range] at hm; omega)
  have hcopy : (copyRecord size n · (some record)) = fun csv =>
      ((List.range n).foldlM (copyCell size n record) csv).bind fun csv => strcat size csv ['\n'] := by
    funext csv
    obtain ⟨c, text, hread⟩ := hfirst
    have hzero : record.read 0 = some (some (c :: text)) := by
      simpa [hread] using h.read 0 (by omega)
    rw [copyRecord, hzero]
    rfl
  rw [hcopy]
  exact hcells.bind (appends_strcat _)

/-! ## Lengths -/

def textLength (row : List Cell) : Nat := (row.flatMap (·.getD [])).length

def filled (row : List Cell) : Nat := row.countP Option.isSome

theorem textLength_append (row row' : List Cell) :
    textLength (row ++ row') = textLength row + textLength row' := by
  simp [textLength]

theorem filled_append (row row' : List Cell) : filled (row ++ row') = filled row + filled row' :=
  List.countP_append

theorem addCells_eq (h : Holds record row) (hn : n ≤ 100) :
    (List.range n).foldlM (addCell record) size =
      some (size + textLength (row.take n) + 10 * filled (row.take n)) := by
  induction n with
  | zero => simp [textLength, filled]
  | succ n ih =>
      rw [List.range_succ, List.foldlM_append, ih (by omega), List.take_add_one,
        textLength_append, filled_append]
      simp only [Option.bind_eq_bind, Option.bind_some, List.foldlM_cons, List.foldlM_nil, addCell,
        h.read n (by omega)]
      cases row[n]? with
      | none => simp [textLength, filled]
      | some cell =>
          cases cell with
          | none => simp [textLength, filled]
          | some text =>
              simp [textLength, filled]
              omega

theorem length_cellTexts {m : Nat} (hm : m ≤ n) :
    ((List.range m).flatMap (cellText n row)).length = textLength (row.take m) + min m (n - 1) := by
  induction m with
  | zero => simp [textLength]
  | succ m ih =>
      rw [List.range_succ, List.flatMap_append, List.length_append, ih (by omega),
        List.take_add_one, textLength_append]
      have hcell : textLength row[m]?.toList = (row[m]?.join.getD []).length := by
        cases row[m]? with
        | none => rfl
        | some cell => simp [textLength]
      rw [hcell, List.flatMap_singleton, cellText, List.length_append]
      split
      · rw [List.length_singleton]
        omega
      · rw [List.length_nil]
        omega

theorem length_rowText (hn : 1 ≤ n) : (rowText n row).length = textLength (row.take n) + n := by
  rw [rowText, List.length_append, length_cellTexts (Nat.le_refl n), List.length_singleton]
  omega

/-! ## The whole table -/

variable (searchClauses : Int → Option (List Pointer))

/-- The cells of a record that hold a text. -/
def filledCells (f : Fact) : Nat := 9 + 6 * (shownClauses searchClauses f).countP Pointer.isFact

variable {searchClauses}

theorem clauseCount_le_length (list : List Pointer) : clauseCount list ≤ list.length := by
  induction list with
  | nil => exact Nat.le_refl 0
  | cons p list ih =>
      rw [clauseCount, List.length_cons]
      split
      · split <;> omega
      · omega

theorem columns_le (f : Fact) : columns searchClauses f ≤ 99 := by
  have hcount := clauseCount_le_length (shownClauses searchClauses f)
  have hlength : (shownClauses searchClauses f).length ≤ 15 := by
    rw [shownClauses, List.length_take]
    omega
  rw [columns]
  omega

theorem le_widest (n : Nat) (list : List Pointer) : n ≤ widest searchClauses n list ∧
    ∀ f ∈ factsOf list, columns searchClauses f ≤ widest searchClauses n list := by
  unfold widest
  induction factsOf list generalizing n with
  | nil => exact ⟨Nat.le_refl n, fun f hf => (by cases hf)⟩
  | cons f facts ih =>
      obtain ⟨hle, hall⟩ := ih (max n (columns searchClauses f))
      refine ⟨by rw [List.foldl_cons]; omega, fun g hg => ?_⟩
      rcases List.mem_cons.mp hg with rfl | hg
      · rw [List.foldl_cons]
        omega
      · exact hall g hg

theorem widest_le {n : Nat} (hn : n ≤ 99) (list : List Pointer) :
    widest searchClauses n list ≤ 99 := by
  unfold widest
  induction factsOf list generalizing n with
  | nil => exact hn
  | cons f facts ih =>
      exact ih (Nat.max_le.mpr ⟨hn, columns_le f⟩)

theorem filled_clauses {list : List Pointer} {m : Nat} (h : 6 * clauseCount list ≤ m) :
    filled ((list.flatMap Pointer.cells).take m) = 6 * list.countP Pointer.isFact := by
  induction list generalizing m with
  | nil => simp [filled]
  | cons p list ih =>
      rw [clauseCount] at h
      rw [List.flatMap_cons, List.take_append, filled_append, p.length_cells, List.countP_cons]
      have hrest : 6 * clauseCount list ≤ m - 6 := by
        split at h <;> omega
      rw [ih hrest]
      cases p with
      | invalid =>
          have hnone : filled (Pointer.invalid.cells.take m) = 0 := by
            rw [Pointer.cells, List.take_replicate, filled, List.countP_replicate]
            rfl
          rw [hnone]
          simp [Pointer.isFact]
      | fact f =>
          have hm : 6 ≤ m := by
            split at h
            · simpa [Pointer.isFact] using h
            · omega
          rw [List.take_of_length_le (by rw [Pointer.length_cells]; exact hm)]
          have hsix : filled (Pointer.fact f).cells = 6 := rfl
          rw [hsix]
          simp only [Pointer.isFact, if_true]
          omega

theorem filled_cells {f : Fact} (h : columns searchClauses f ≤ n) :
    filled ((f.cells searchClauses).take n) = filledCells searchClauses f := by
  rw [columns] at h
  have hnine : (f.recordTexts.map some : List Cell).length = 9 := rfl
  rw [Fact.cells, List.take_append, filled_append, hnine, filled_clauses (by omega),
    List.take_of_length_le (by rw [hnine]; omega), filledCells]
  rfl

/-- The text that is written for a pointer. -/
def pointerText (searchClauses : Int → Option (List Pointer)) (n : Nat) : Pointer → Str
  | .fact f => rowText n (f.cells searchClauses)
  | .invalid => []

/-- The bytes that are counted for a pointer. -/
def pointerSize (searchClauses : Int → Option (List Pointer)) (n : Nat) : Pointer → Nat
  | .fact f => textLength ((f.cells searchClauses).take n) + 10 * filledCells searchClauses f
  | .invalid => 0

variable {list : List Pointer} {data : List (Option Record)}

theorem first_cell (f : Fact) :
    ∃ c text, (f.cells searchClauses)[0]? = some (some (c :: text)) := by
  obtain ⟨c, text, h⟩ := List.exists_cons_of_ne_nil (Lib.signed_ne_nil f.pk)
  exact ⟨c, text, by rw [← h]; rfl⟩

theorem csvSize_eq (hdata : List.Forall₂ (Renders searchClauses) list data) (hn : n ≤ 99)
    (hcolumns : ∀ f ∈ factsOf list, columns searchClauses f ≤ n) :
    data.foldlM (addRecord n) size =
      some ((list.map (pointerSize searchClauses n)).foldl (· + ·) size) := by
  induction hdata generalizing size with
  | nil => rfl
  | @cons p r list data hp _ ih =>
      cases p with
      | invalid =>
          cases r with
          | none => exact ih hcolumns
          | some record => cases hp
      | fact f =>
          cases r with
          | none => cases hp
          | some record =>
              have hrest := @ih (size + pointerSize searchClauses n (.fact f)) fun g hg =>
                hcolumns g (List.mem_cons_of_mem _ hg)
              rw [List.foldlM_cons, addRecord, addCells_eq hp (by omega),
                filled_cells (hcolumns f List.mem_cons_self), Nat.add_assoc]
              exact hrest

theorem appends_copyRecords (hdata : List.Forall₂ (Renders searchClauses) list data)
    (hn : n ≤ 99) : Appends size (fun csv => data.foldlM (copyRecord size n) csv)
      (list.flatMap (pointerText searchClauses n)) := by
  induction hdata with
  | nil => exact appends_some
  | @cons p r list data hp _ ih =>
      have hfirst : Appends size (copyRecord size n · r) (pointerText searchClauses n p) := by
        cases p with
        | invalid =>
            cases r with
            | none => exact appends_some
            | some record => cases hp
        | fact f =>
            cases r with
            | none => cases hp
            | some record => exact appends_copyRecord hp (by omega) (first_cell f)
      exact hfirst.bind ih

/-- The cells of all records that hold a text. -/
def allFilled (searchClauses : Int → Option (List Pointer)) (list : List Pointer) : Nat :=
  (factsOf list).foldr (fun f n => filledCells searchClauses f + n) 0

/-- What is counted against what is written. -/
theorem size_balance (hn : 1 ≤ n) (list : List Pointer) (size : Nat) :
    (list.map (pointerSize searchClauses n)).foldl (· + ·) size + (factsOf list).length * n =
      size + (list.flatMap (pointerText searchClauses n)).length +
        10 * allFilled searchClauses list := by
  induction list generalizing size with
  | nil => simp [factsOf, allFilled]
  | cons p list ih =>
      rw [List.map_cons, List.foldl_cons, List.flatMap_cons, List.length_append]
      have hrest := ih (size + pointerSize searchClauses n p)
      cases p with
      | invalid =>
          have hfacts : factsOf (.invalid :: list) = factsOf list := rfl
          have hfilled : allFilled searchClauses (.invalid :: list) =
              allFilled searchClauses list := rfl
          rw [hfacts, hfilled, pointerText, List.length_nil, Nat.zero_add]
          exact hrest
      | fact f =>
          have hfacts : factsOf (.fact f :: list) = f :: factsOf list := rfl
          have hfilled : allFilled searchClauses (.fact f :: list) =
              filledCells searchClauses f + allFilled searchClauses list := rfl
          rw [hfacts, List.length_cons, Nat.add_mul, hfilled]
          simp only [pointerSize, pointerText] at hrest ⊢
          rw [length_rowText hn]
          omega

theorem le_foldl_add (l : List Nat) (n : Nat) : n ≤ l.foldl (· + ·) n := by
  induction l generalizing n with
  | nil => exact Nat.le_refl n
  | cons x l ih => exact (Nat.le_add_right n x).trans (ih (n + x))

/-- A table is written whole when there is room for it. -/
theorem makeCsv_array {set : Dataset} (h : asDataset searchClauses (.array list) = some set) :
    ∃ size, hal2012MakeCsv set =
        fits size (list.flatMap (pointerText searchClauses (widest searchClauses 9 list))) ∧
      size + (factsOf list).length * widest searchClauses 9 list = 4096 + list.length +
        (list.flatMap (pointerText searchClauses (widest searchClauses 9 list))).length +
          10 * allFilled searchClauses list := by
  simp only [asDataset, Option.bind_eq_bind, Option.bind_eq_some_iff] at h
  obtain ⟨⟨data, n⟩, hrecords, hset⟩ := h
  cases hset
  obtain ⟨hdata, rfl⟩ := renders_recordsFrom hrecords
  obtain ⟨hnine, hcolumns⟩ := @le_widest searchClauses 9 list
  have hn := @widest_le searchClauses 9 (by omega) list
  refine ⟨_, ?_, size_balance (by omega) list (4096 + list.length)⟩
  have hsize := le_foldl_add (list.map (pointerSize searchClauses (widest searchClauses 9 list)))
    (4096 + list.length)
  rw [← (appends_copyRecords hdata hn).from_nil (by omega), hal2012MakeCsv,
    if_neg (show ¬ (0 : Int) = tooMuch by decide), Dataset.csvSize, Nat.one_mul,
    csvSize_eq hdata hn hcolumns]
  rfl

/-- What `as_dataset` is given, as a list. -/
def Facts.pointers : Facts → List Pointer
  | .array list => list
  | _ => []

/-- The buffer is large enough when the cells of all records, the empty ones included, are less than
the bytes that are allocated in advance and ten for each cell with a text. -/
theorem makeCsv_fits_iff (searchClauses : Int → Option (List Pointer)) (facts : Facts)
    (set : Dataset) (h : asDataset searchClauses facts = some set) :
    (hal2012MakeCsv set).isSome ↔
      (factsOf facts.pointers).length * widest searchClauses 9 facts.pointers <
        4096 + facts.pointers.length + 10 * allFilled searchClauses facts.pointers := by
  cases facts with
  | tooMuch =>
      cases h
      simp [hal2012MakeCsv, Facts.pointers, factsOf, Nat.add_pos_left]
  | null =>
      cases h
      simp [hal2012MakeCsv, Facts.pointers, factsOf, tooMuch, Dataset.csvSize, Nat.add_pos_left]
  | array list =>
      obtain ⟨size, hcsv, hbalance⟩ := makeCsv_array h
      rw [hcsv, isSome_fits, Facts.pointers]
      omega

def katze (pk : Int) : Fact where
  pk := pk
  verbs := [⟨"ist".toList⟩]
  subjects := [⟨"katze".toList⟩]
  objects := [⟨"tier".toList⟩]
  adverbs := []
  questionword := none
  filename := some "facts.pro".toList
  line := none
  truth := 1

theorem makeCsv_fits_katze : ∃ set, asDataset (fun _ => none) (.array [.fact (katze 1)]) = some set ∧
    (hal2012MakeCsv set).isSome = true :=
  ⟨_, rfl, (makeCsv_fits_iff (fun _ => none) (.array [.fact (katze 1)]) _ rfl).mpr (by decide)⟩

/-- Only the fact with the key 0 has clauses. -/
def katzeClauses (pk : Int) : Option (List Pointer) :=
  if pk = 0 then some (List.replicate 15 (.fact (katze (-1)))) else none

/-- A fact with fifteen clauses, and 624 facts without any. -/
def manyKatzen : List Pointer := (List.range 625).map fun i : Nat => .fact (katze i)

theorem makeCsv_overflows : ∃ set, asDataset katzeClauses (.array manyKatzen) = some set ∧
    hal2012MakeCsv set = none := by
  have hfew : ∀ f ∈ factsOf manyKatzen, ((katzeClauses f.pk).getD []).length ≤ 15 := by
    intro f _
    unfold katzeClauses
    split <;> simp
  obtain ⟨⟨data, n⟩, hrecords⟩ := @exists_recordsFrom katzeClauses 9 manyKatzen hfew
  have hset : asDataset katzeClauses (.array manyKatzen) = some ⟨data, manyKatzen.length, n, 0⟩ := by
    rw [asDataset, hrecords]
    rfl
  obtain ⟨size, hcsv, hbalance⟩ := makeCsv_array hset
  have hfacts : (factsOf manyKatzen).length = 625 := by decide +kernel
  have hwidest : widest katzeClauses 9 manyKatzen = 99 := by decide +kernel
  have hfilled : allFilled katzeClauses manyKatzen = 5715 := by decide +kernel
  have hlength : manyKatzen.length = 625 := by
    rw [manyKatzen, List.length_map, List.length_range]
  rw [hwidest] at hcsv
  rw [hfacts, hwidest, hfilled, hlength] at hbalance
  refine ⟨_, hset, ?_⟩
  rw [hcsv, fits, if_neg (by omega)]

end Freehal.Records
