import Freehal.Lib.Block
import Freehal.Universal.Text

/-!
# Facts as records of texts

`as_dataset` and `append_on_dataset_record` of `hal2012-universal.c`: each fact becomes a record of
a hundred cells, and its clauses stand behind its own nine columns.
-/

namespace Freehal.Records

open Universal (Word joinWords)
open Lib (Block signed)

/-! ## Facts -/

/-- What the records hold of a `struct fact`. -/
structure Fact where
  pk : Int
  verbs : List Word
  subjects : List Word
  objects : List Word
  adverbs : List Word
  questionword : Option Str
  filename : Option Str
  line : Option Str
  truth : Rat

/-- A pointer in an array of facts, which is no null pointer. -/
inductive Pointer where
  | fact (fact : Fact)
  | invalid

def Pointer.isFact : Pointer → Bool
  | .fact _ => true
  | .invalid => false

/-- What `as_dataset` is given. -/
inductive Facts where
  | tooMuch
  | null
  | array (list : List Pointer)

/-- `TOOMUCH` -/
def tooMuch : Int := -7

/-! ## Records -/

/-- A string, or a null pointer. -/
abbrev Cell := Option Str

abbrev Record := Block Cell

structure Dataset where
  data : List (Option Record)
  size : Nat
  columnCount : Nat
  err : Int

def truthText (truth : Rat) : Str :=
  if 1 / 5 < truth ∧ truth < 4 / 5 then "0.5".toList
  else signed (truth.num.tdiv truth.den) ++ ".0".toList

/-- Assignments to the cells from `offset` on. -/
def fill (record : Record) (offset : Nat) : List Str → Option Record
  | [] => some record
  | text :: texts => do fill (← record.write offset (some text)) (offset + 1) texts

/-- The six cells of a clause. -/
def Fact.clauseTexts (f : Fact) : List Str :=
  [joinWords f.verbs, joinWords f.subjects, joinWords f.objects, joinWords f.adverbs,
    f.questionword.getD [], truthText f.truth]

/-- The first nine cells of a record. -/
def Fact.recordTexts (f : Fact) : List Str :=
  [signed f.pk, joinWords f.verbs, joinWords f.subjects, joinWords f.objects, joinWords f.adverbs,
    "50".toList, f.filename.getD [], f.line.getD [], truthText f.truth]

/-- The loop over the clauses. -/
def appendFrom (offset limit : Nat) : Nat → Record → Nat → List Pointer → Option (Record × Nat)
  | _, record, columnCount, [] => some (record, columnCount)
  | d, record, columnCount, .invalid :: list => appendFrom offset limit (d + 1) record columnCount list
  | d, record, _, .fact f :: list => do
      let record ← fill record (offset + d * 6) f.clauseTexts
      let columnCount := offset + d * 6 + 6
      if limit ≤ offset + d * 6 + 6 * 2 then return (record, columnCount)
      else appendFrom offset limit (d + 1) record columnCount list

def appendOnDatasetRecord (offset limit : Nat) (record : Record) :
    Option (List Pointer) → Option (Record × Nat)
  | none => some (record, offset)
  | some list => appendFrom offset limit 0 record offset list

variable (searchClauses : Int → Option (List Pointer))

def recordOf (f : Fact) : Option (Record × Nat) := do
  let record ← fill (Block.calloc 100 none) 0 f.recordTexts
  appendOnDatasetRecord 9 100 record (searchClauses f.pk)

/-- The loop over the facts. It fails where something is written behind the cells of a record. -/
def recordsFrom : Nat → List Pointer → Option (List (Option Record) × Nat)
  | columnCount, [] => some ([], columnCount)
  | columnCount, .invalid :: list => do
      let (data, columnCount) ← recordsFrom columnCount list
      return (none :: data, columnCount)
  | columnCount, .fact f :: list => do
      let (record, columns) ← recordOf searchClauses f
      let (data, columnCount) ←
        recordsFrom (if columns > columnCount then columns else columnCount) list
      return (some record :: data, columnCount)

def asDataset : Facts → Option Dataset
  | .tooMuch => some ⟨[], 0, 0, tooMuch⟩
  | .null => some ⟨[], 0, 0, 0⟩
  | .array list => do
      let (data, columnCount) ← recordsFrom searchClauses 9 list
      return ⟨data, list.length, columnCount, 0⟩

end Freehal.Records
