import Freehal.Records.MakeCsv

/-!
# The table in the window

The server writes the lines of a table to `_csv-data.txt`, and the window reads them from there:
the answer to a `CSV` request in `hal2012-server-thread.cpp`, `comm_new`, `make_dataset` and
`add_to_dataset` in `FreeHALQt.cpp`. The request itself and the echo on the standard streams are
left out.
-/

namespace Freehal.Records

open Lib (Block)

/-! ## The file -/

/-- The loop over `pos`: `line` stands from `last_pos` on. A line end that is the last character of
the table sets `last_pos` to -1. -/
def resultLines : Str → Str → List Str
  | line, [] => [line]
  | line, '\n' :: csv => line :: if csv = [] then [] else resultLines [] csv
  | line, c :: csv => resultLines (line ++ [c]) csv

/-- `_csv-data.txt` -/
def csvDataFile (csv : Str) : Str := (resultLines [] csv).flatMap (· ++ ['\n'])

/-- What `getline` gives until the stream is bad. The last call finds nothing and leaves an empty
line, for which the body of the loop is run too. -/
def getlines : Str → Str → List Str
  | line, [] => if line = [] then [[]] else [line, []]
  | line, '\n' :: file => line :: getlines [] file
  | line, c :: file => getlines (line ++ [c]) file

/-! ## The table -/

/-- `max_amount_of_answers_in_db_tool` -/
def maxAmountOfAnswers : Nat := 100000

/-- The cells of a record that were allocated. -/
abbrev WindowRecord := List Str

structure WindowTable where
  data : Block (Option WindowRecord)
  size : Nat

def makeDataset : Option WindowTable := do
  return ⟨← (Block.calloc (maxAmountOfAnswers + 1) none).write 0 (some [[]]), 0⟩

/-- A character of a record, which is no pipe. Where the last cell is full or the eighth, not even a
separator is read. -/
def addChar (record : WindowRecord) (c : Char) : WindowRecord :=
  let cell := record.getLast?.getD []
  if cell.length < 99 ∧ record.length - 1 < 8 then
    if c = '^' then record ++ [[]]
    else record.dropLast ++ [cell ++ [if c = ';' then ':' else c]]
  else record

/-- The loop over `length`. A pipe begins another record. -/
def addChars (data : Block (Option WindowRecord)) (record : Nat) (cells : WindowRecord) :
    Str → Option (Block (Option WindowRecord))
  | [] => data.write record (some cells)
  | c :: csv =>
      if c = '|' then do
        let data ← data.write record (some cells)
        addChars data (record + 1) [[]] csv
      else addChars data record (addChar cells c) csv

/-- Three separators begin among the first ten characters. -/
def isSkippedLine (csv : Str) : Bool :=
  (csv.tails.findIdx? fun rest => "^^^".toList.isPrefixOf rest).any (· < 10)

def addToDataset (set : WindowTable) (csv : Str) : Option WindowTable :=
  if maxAmountOfAnswers ≤ set.size then some set
  else if isSkippedLine csv then some set
  else do return ⟨← addChars set.data set.size [[]] csv, set.size + 1⟩

/-- `comm_new` for a `CSV_RESULT` -/
def receiveCsv (file : Str) : Option WindowTable := do
  (getlines [] file).foldlM addToDataset (← makeDataset)

/-- The records that `updateData` shows. -/
def WindowTable.shown (set : WindowTable) : List (Option WindowRecord) :=
  (List.range (set.size - 1)).map fun row : Nat => (set.data.read row).join

/-! ## Lines -/

section

variable {line : Str} {lines : List Str}

theorem resultLines_line (h : '\n' ∉ line) (start rest : Str) :
    resultLines start (line ++ rest) = resultLines (start ++ line) rest := by
  induction line generalizing start with
  | nil => simp
  | cons c line ih =>
      have hc := List.ne_of_not_mem_cons h
      have hline := List.not_mem_of_not_mem_cons h
      rw [List.cons_append, resultLines, ih hline, List.append_assoc, List.singleton_append]
      exact fun heq => hc heq.symm

/-- A table of lines is written as these lines, and one without lines as an empty line. -/
theorem resultLines_lines (h : ∀ line ∈ lines, '\n' ∉ line) :
    resultLines [] (lines.flatMap (· ++ ['\n'])) = if lines = [] then [[]] else lines := by
  induction lines with
  | nil => rfl
  | cons line lines ih =>
      have hrest := ih fun l hl => h l (List.mem_cons_of_mem _ hl)
      have hnil : lines.flatMap (· ++ ['\n']) = [] ↔ lines = [] := by
        cases lines with
        | nil => simp
        | cons l ls => simp
      rw [List.flatMap_cons, List.append_assoc, resultLines_line (h line List.mem_cons_self),
        List.singleton_append, List.nil_append, resultLines, hrest, if_neg (List.cons_ne_nil _ _)]
      by_cases hlines : lines = []
      · rw [if_pos (hnil.mpr hlines), hlines]
      · rw [if_neg (hnil.not.mpr hlines), if_neg hlines]

theorem getlines_line (h : '\n' ∉ line) (start rest : Str) :
    getlines start (line ++ rest) = getlines (start ++ line) rest := by
  induction line generalizing start with
  | nil => simp
  | cons c line ih =>
      have hc := List.ne_of_not_mem_cons h
      have hline := List.not_mem_of_not_mem_cons h
      rw [List.cons_append, getlines, ih hline, List.append_assoc, List.singleton_append]
      exact fun heq => hc heq.symm

theorem getlines_lines (h : ∀ line ∈ lines, '\n' ∉ line) :
    getlines [] (lines.flatMap (· ++ ['\n'])) = lines ++ [[]] := by
  induction lines with
  | nil => rfl
  | cons line lines ih =>
      rw [List.flatMap_cons, List.append_assoc, getlines_line (h line List.mem_cons_self),
        List.singleton_append, List.nil_append, getlines,
        ih fun l hl => h l (List.mem_cons_of_mem _ hl), List.cons_append]

/-- What the window reads of a table of lines. -/
theorem getlines_csvDataFile (h : ∀ line ∈ lines, '\n' ∉ line) :
    getlines [] (csvDataFile (lines.flatMap (· ++ ['\n']))) =
      (if lines = [] then [[]] else lines) ++ [[]] := by
  rw [csvDataFile, resultLines_lines h, getlines_lines]
  intro line hline
  split at hline
  · rw [List.mem_singleton.mp hline]
    exact List.not_mem_nil
  · exact h line hline

end

/-! ## Records -/

section

variable {record done : WindowRecord} {cell text rest : Str} {texts : List Str}

/-- A character as the window shows it. -/
def shownText (text : Str) : Str := text.map fun c => if c = ';' then ':' else c

/-- What the window has of some columns and the one behind them. Behind a text of 99 characters
nothing of the record is read. -/
def received : List Str → WindowRecord
  | [] => [[]]
  | text :: texts =>
      if text.length < 99 then shownText text :: received texts
      else [shownText (text.take 99)]

theorem received_eq_iff : received texts = texts.map shownText ++ [[]] ↔
    ∀ text ∈ texts, text.length < 99 := by
  induction texts with
  | nil => simp [received]
  | cons text texts ih =>
      rw [received, List.forall_mem_cons]
      split
      · rename_i hlt
        simp [hlt, ih]
      · rename_i hlt
        simp [hlt]

/-- A text without pipes and separators, as far as there is room. -/
theorem foldl_addChar_text (hdone : done.length < 8) (hseparator : '^' ∉ text)
    (hcell : cell.length ≤ 99) : text.foldl addChar (done ++ [cell]) =
      done ++ [cell ++ shownText (text.take (99 - cell.length))] := by
  induction text generalizing cell with
  | nil => simp [shownText]
  | cons c text ih =>
      have hc := List.ne_of_not_mem_cons hseparator
      have htext := List.not_mem_of_not_mem_cons hseparator
      by_cases hfull : cell.length < 99
      · have hadd : addChar (done ++ [cell]) c =
            done ++ [cell ++ [if c = ';' then ':' else c]] := by
          have hc' : c ≠ '^' := fun heq => hc heq.symm
          simp [addChar, hfull, hdone, hc']
        have htake : 99 - cell.length = 99 - (cell ++ [if c = ';' then ':' else c]).length + 1 := by
          rw [List.length_append, List.length_singleton]
          omega
        rw [List.foldl_cons, hadd, ih htext (by simp; omega), htake, List.take_succ_cons,
          shownText, shownText, List.map_cons, List.append_assoc, List.singleton_append]
      · have hadd : addChar (done ++ [cell]) c = done ++ [cell] := by
          simp [addChar, hfull]
        have hzero : 99 - cell.length = 0 := by omega
        rw [List.foldl_cons, hadd, ih htext hcell, hzero]
        rfl

/-- Nothing is read into a full cell or the ninth. -/
theorem foldl_addChar_stop (h : 99 ≤ (record.getLast?.getD []).length ∨ 9 ≤ record.length) :
    rest.foldl addChar record = record := by
  induction rest with
  | nil => rfl
  | cons c rest ih =>
      have hadd : addChar record c = record := by
        rw [addChar, if_neg (by omega)]
      rw [List.foldl_cons, hadd, ih]

theorem foldl_addChar_columns (hlength : done.length + texts.length = 8)
    (h : ∀ text ∈ texts, '^' ∉ text) (rest : Str) :
    (texts.flatMap (· ++ ['^']) ++ rest).foldl addChar (done ++ [[]]) = done ++ received texts := by
  induction texts generalizing done with
  | nil =>
      rw [List.flatMap_nil, List.nil_append, received]
      exact foldl_addChar_stop (Or.inr (by simp at hlength ⊢; omega))
  | cons text texts ih =>
      obtain ⟨htext, htexts⟩ := List.forall_mem_cons.mp h
      rw [List.length_cons] at hlength
      rw [List.flatMap_cons, List.append_assoc, List.append_assoc, List.foldl_append,
        foldl_addChar_text (by omega) htext (by simp), List.nil_append, List.length_nil,
        Nat.sub_zero, received, List.singleton_append, List.foldl_cons]
      by_cases hlt : text.length < 99
      · have hshown : shownText (text.take 99) = shownText text := by
          rw [List.take_of_length_le (by omega)]
        have hadd : addChar (done ++ [shownText text]) '^' = done ++ [shownText text] ++ [[]] := by
          have hshort : (shownText text).length < 99 := by rwa [shownText, List.length_map]
          simp [addChar, hshort, show done.length < 8 by omega]
        rw [hshown, hadd, ih (by simp; omega) htexts, if_pos hlt, List.append_assoc,
          List.singleton_append]
      · rw [if_neg hlt, ← List.foldl_cons (f := addChar)]
        refine foldl_addChar_stop (Or.inl ?_)
        rw [List.getLast?_concat, Option.getD_some, shownText, List.length_map, List.length_take]
        omega

theorem addChars_eq {data : Block (Option WindowRecord)} {n : Nat} (h : '|' ∉ text) :
    addChars data n record text = data.write n (some (text.foldl addChar record)) := by
  induction text generalizing record with
  | nil => rfl
  | cons c text ih =>
      rw [addChars, if_neg (List.ne_of_not_mem_cons h).symm,
        ih (List.not_mem_of_not_mem_cons h), List.foldl_cons]

end

/-! ## Reading a table -/

section

variable {set : WindowTable} {rows : List WindowRecord} {lines : List Str} {line : Str}

/-- The table has these records. -/
structure TableHolds (set : WindowTable) (rows : List WindowRecord) : Prop where
  allocated : set.data.size = maxAmountOfAnswers + 1
  size : set.size = rows.length
  read : ∀ (i : Nat) (h : i < rows.length), set.data.read i = some (some rows[i])

theorem tableHolds_makeDataset : ∃ set, makeDataset = some set ∧ TableHolds set [] := by
  obtain ⟨data, hwrite⟩ := @Block.exists_write _ (Block.calloc (maxAmountOfAnswers + 1) none)
    (some [[]] : Option WindowRecord) 0 (by omega) (by rw [Block.size_calloc]; omega)
  refine ⟨⟨data, 0⟩, by rw [makeDataset, hwrite]; rfl, ?_, rfl, fun i hi => (by cases hi)⟩
  rw [Block.size_write hwrite, Block.size_calloc]

/-- The record of a line. -/
def recordOfLine (line : Str) : WindowRecord := line.foldl addChar [[]]

theorem TableHolds.add (h : TableHolds set rows) (hroom : rows.length < maxAmountOfAnswers)
    (hline : '|' ∉ line) : ∃ set', addToDataset set line = some set' ∧
      TableHolds set' (rows ++ if isSkippedLine line then [] else [recordOfLine line]) := by
  rw [addToDataset, if_neg (by rw [h.size]; omega)]
  cases isSkippedLine line with
  | true => exact ⟨set, rfl, by simpa using h⟩
  | false =>
      obtain ⟨data, hwrite⟩ := @Block.exists_write _ set.data (some (recordOfLine line))
        (rows.length : Nat) (by omega) (by rw [h.allocated]; omega)
      refine ⟨⟨data, rows.length + 1⟩, ?_, (Block.size_write hwrite).trans h.allocated, by simp,
        fun i hi => ?_⟩
      · rw [if_neg Bool.false_ne_true, addChars_eq hline, h.size, ← recordOfLine, hwrite]
        rfl
      · by_cases hlast : i = rows.length
        · subst hlast
          simp [Block.read_write_self hwrite]
        · have hlt : i < rows.length := by simp at hi; omega
          rw [Block.read_write_of_ne hwrite (by omega), h.read i hlt]
          simp [hlt]

theorem TableHolds.addAll (h : TableHolds set rows)
    (hroom : rows.length + lines.length ≤ maxAmountOfAnswers) (hlines : ∀ l ∈ lines, '|' ∉ l) :
    ∃ set', lines.foldlM addToDataset set = some set' ∧
      TableHolds set' (rows ++ (lines.filter (!isSkippedLine ·)).map recordOfLine) := by
  induction lines generalizing set rows with
  | nil => exact ⟨set, rfl, by simpa using h⟩
  | cons line lines ih =>
      rw [List.length_cons] at hroom
      obtain ⟨set', hadd, hholds⟩ := h.add (by omega) (hlines line List.mem_cons_self)
      have hlength : (rows ++ if isSkippedLine line then [] else [recordOfLine line]).length ≤
          rows.length + 1 := by
        split <;> simp
      obtain ⟨set'', hrest, hall⟩ := ih hholds (by omega)
        fun l hl => hlines l (List.mem_cons_of_mem _ hl)
      refine ⟨set'', by rw [List.foldlM_cons, hadd]; exact hrest, ?_⟩
      cases hskip : isSkippedLine line with
      | true => simpa [hskip] using hall
      | false => simpa [hskip] using hall

theorem TableHolds.shown {last : WindowRecord} (h : TableHolds set (rows ++ [last])) :
    set.shown = rows.map some := by
  have hsize : set.size - 1 = rows.length := by
    rw [h.size, List.length_append, List.length_singleton, Nat.add_sub_cancel]
  rw [WindowTable.shown, hsize]
  refine List.ext_getElem (by simp) fun i hi hi' => ?_
  have hlt : i < rows.length := by simpa using hi'
  rw [List.getElem_map, List.getElem_range, List.getElem_map,
    h.read i (by rw [List.length_append]; omega), List.getElem_append_left hlt]
  rfl

/-- A file of lines without pipes is shown line by line, except for those that are skipped. -/
theorem receiveCsv_lines (hroom : lines.length < maxAmountOfAnswers)
    (hlines : ∀ l ∈ lines, '\n' ∉ l ∧ '|' ∉ l) :
    ∃ set, receiveCsv (csvDataFile (lines.flatMap (· ++ ['\n']))) = some set ∧
      set.shown = ((if lines = [] then [[]] else lines).filter (!isSkippedLine ·)).map
        fun line => some (recordOfLine line) := by
  obtain ⟨set, hmake, hholds⟩ := tableHolds_makeDataset
  have hall : ∀ l ∈ (if lines = [] then [[]] else lines) ++ [[]], '|' ∉ l := by
    intro l hl
    rcases List.mem_append.mp hl with hl | hl
    · split at hl
      · rw [List.mem_singleton.mp hl]
        exact List.not_mem_nil
      · exact (hlines l hl).2
    · rw [List.mem_singleton.mp hl]
      exact List.not_mem_nil
  have hlength : ([] : List WindowRecord).length +
      ((if lines = [] then [[]] else lines) ++ [[]]).length ≤ maxAmountOfAnswers := by
    have hmax : 2 ≤ maxAmountOfAnswers := by decide
    split
    · simpa using hmax
    · simp only [List.length_nil, List.length_append, List.length_singleton]
      omega
  obtain ⟨set', hadd, hholds'⟩ := hholds.addAll hlength hall
  refine ⟨set', ?_, ?_⟩
  · rw [receiveCsv, hmake, getlines_csvDataFile fun l hl => (hlines l hl).1]
    exact hadd
  · have hempty : isSkippedLine [] = false := by decide
    have hlast : [] ++ (((if lines = [] then [[]] else lines) ++ [[]]).filter
        (!isSkippedLine ·)).map recordOfLine =
        ((if lines = [] then [[]] else lines).filter (!isSkippedLine ·)).map recordOfLine ++
          [recordOfLine []] := by
      rw [List.nil_append, List.filter_append, List.map_append]
      simp [hempty]
    rw [hlast] at hholds'
    rw [hholds'.shown, List.map_map]
    rfl

end

/-! ## The whole way -/

section

variable {searchClauses : Int → Option (List Pointer)} {list : List Pointer} {f : Fact} {n : Nat}

/-- The line of a fact in a table of `n` columns. -/
def Fact.csvLine (searchClauses : Int → Option (List Pointer)) (n : Nat) (f : Fact) : Str :=
  (List.range n).flatMap (cellText n (f.cells searchClauses))

/-- The columns that the window has room for. -/
def Fact.windowTexts (f : Fact) : List Str := f.recordTexts.take 8

/-- No cell of the record has a separator, a pipe or a line end. -/
def Fact.Plain (searchClauses : Int → Option (List Pointer)) (f : Fact) : Prop :=
  ∀ cell ∈ f.cells searchClauses, ∀ text ∈ cell, '^' ∉ text ∧ '|' ∉ text ∧ '\n' ∉ text

theorem Fact.Plain.text (h : f.Plain searchClauses) {text : Str}
    (htext : some text ∈ f.cells searchClauses) : '^' ∉ text ∧ '|' ∉ text ∧ '\n' ∉ text :=
  h _ htext text rfl

theorem flatMap_pointerText : list.flatMap (pointerText searchClauses n) =
    ((factsOf list).map (Fact.csvLine searchClauses n)).flatMap (· ++ ['\n']) := by
  induction list with
  | nil => rfl
  | cons p list ih =>
      cases p with
      | invalid => exact ih
      | fact f =>
          rw [List.flatMap_cons, ih]
          rfl

/-- A character of a line that is no separator is from one of the cells. -/
theorem not_mem_csvLine {c : Char} (hc : c ≠ '^')
    (h : ∀ text, some text ∈ f.cells searchClauses → c ∉ text) :
    c ∉ f.csvLine searchClauses n := by
  intro hmem
  obtain ⟨m, -, hm⟩ := List.mem_flatMap.mp hmem
  rcases List.mem_append.mp hm with hcell | hseparator
  · cases hget : (f.cells searchClauses)[m]? with
    | none => simp [hget] at hcell
    | some cell =>
        cases cell with
        | none => simp [hget] at hcell
        | some text =>
            rw [hget] at hcell
            exact h text (List.mem_of_getElem? hget) hcell
  · split at hseparator
    · exact hc (List.mem_singleton.mp hseparator)
    · cases hseparator

/-- The first eight columns have a separator behind them. -/
theorem csvLine_eq (hn : 9 ≤ n) (f : Fact) : ∃ rest, f.csvLine searchClauses n =
    f.windowTexts.flatMap (· ++ ['^']) ++ rest := by
  obtain ⟨k, rfl⟩ : ∃ k, n = 8 + k := ⟨n - 8, by omega⟩
  refine ⟨((List.range k).map (8 + ·)).flatMap (cellText (8 + k) (f.cells searchClauses)), ?_⟩
  have hcell : ∀ m < 8, cellText (8 + k) (f.cells searchClauses) m =
      (f.recordTexts[m]?.getD []) ++ ['^'] := by
    intro m hm
    have hnine : m < (f.recordTexts.map some).length := by
      have : (f.recordTexts.map some).length = 9 := rfl
      omega
    rw [cellText, if_pos (by omega), Fact.cells, List.getElem?_append_left hnine,
      List.getElem?_map]
    cases f.recordTexts[m]? <;> rfl
  have hfirst : (List.range 8).flatMap (cellText (8 + k) (f.cells searchClauses)) =
      f.windowTexts.flatMap (· ++ ['^']) := by
    have hall : (List.range 8).flatMap (cellText (8 + k) (f.cells searchClauses)) =
        (List.range 8).flatMap fun m => (f.recordTexts[m]?.getD []) ++ ['^'] :=
      List.flatMap_congr fun m hm => hcell m (List.mem_range.mp hm)
    rw [hall]
    rfl
  rw [Fact.csvLine, List.range_add, List.flatMap_append, hfirst]

theorem mem_windowTexts {text : Str} (h : text ∈ f.windowTexts) :
    some text ∈ f.cells searchClauses :=
  List.mem_append_left _ (List.mem_map_of_mem (List.mem_of_mem_take h))

theorem recordOfLine_csvLine (hn : 9 ≤ n) (h : f.Plain searchClauses) :
    recordOfLine (f.csvLine searchClauses n) = received f.windowTexts := by
  obtain ⟨rest, hline⟩ := @csvLine_eq searchClauses n hn f
  have hcolumns := @foldl_addChar_columns [] f.windowTexts rfl
    (fun text htext => (h.text (mem_windowTexts htext)).1) rest
  rwa [← hline] at hcolumns

/-- A fact from a file with a long name. -/
def longFilename : Fact := { katze 7 with filename := some (List.replicate 120 'x') }

end

end Freehal.Records
