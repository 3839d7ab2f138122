import Freehal.Lib.Table
import Freehal.Lib.Script
import Freehal.Universal.Text

/-!
# The database of the disk engine

The tables of `hal2012-disk.h` and the statements that `hal2012-disk.c` writes. A column that is
NULL is `none`. The tables exist: `sql_execute` creates them and starts again where they do not.
The columns that no statement here writes and the temporary tables are left out.
-/

namespace Freehal.Disk

open Lib (Table)

/-! ## Rows -/

structure WordRow where
  id : Int
  word : Str
deriving DecidableEq

structure SynonymRow where
  a : Option Int
  aLast : Option Int
  b : Option Int
  bLast : Option Int
  fileid : Int
  line : Int
deriving DecidableEq

/-- A row of `facts` or of `clauses`. -/
structure FactRow where
  id : Int
  verb : Option Int
  subjects : Option Int
  objects : Option Int
  adverbs : Option Int
  questionword : Option Int
  prio : Int
  fileid : Int
  line : Int
  rel : Int
  truth : Str
  onlyLogic : Bool
deriving DecidableEq

structure VerbFlags where
  want : Bool
  must : Bool
  can : Bool
  may : Bool
  should : Bool
deriving DecidableEq

/-- A row of `rel_fact_flag` or of `rel_clause_flag`. -/
structure FlagRow where
  fact : Int
  flags : VerbFlags
deriving DecidableEq

/-- A row of `rel_word_fact`. -/
structure IndexRow where
  word : Option Int
  fact : Int
  table : Int
deriving DecidableEq

def WordRow.clash (r s : WordRow) : Bool := r.id = s.id || r.word = s.word

/-- A NULL clashes with nothing. -/
def SynonymRow.clash (r s : SynonymRow) : Bool :=
  r.b.isSome && r.a.isSome && r.b = s.b && r.a = s.a

def FactRow.clash (r s : FactRow) : Bool := r.id = s.id

def FlagRow.clash (r s : FlagRow) : Bool := r.fact = s.fact

def IndexRow.clash (r s : IndexRow) : Bool := r.word.isSome && r = s

structure Database where
  word : Table WordRow.clash
  synonym : Table SynonymRow.clash
  facts : Table FactRow.clash
  clauses : Table FactRow.clash
  relFactFlag : Table FlagRow.clash
  relClauseFlag : Table FlagRow.clash
  relWordFact : Table IndexRow.clash

/-- `sqlite_sql_create_table` -/
def Database.created : Database where
  word := (Table.empty.insertOrIgnore ⟨0, []⟩).insertOrIgnore ⟨1, ['_']⟩
  synonym := Table.empty
  facts := Table.empty
  clauses := Table.empty
  relFactFlag := Table.empty
  relClauseFlag := Table.empty
  relWordFact := Table.empty

/-! ## Statements -/

/-- `no_underscore`, and the word itself where it returns 0. -/
def stored (word : Str) : Str :=
  match word with
  | '_' :: c :: text =>
      let text := if (c :: text).getLast? = some '_' then (c :: text).dropLast else c :: text
      singleBlanks (text.map fun ch => if ch = '_' then ' ' else ch)
  | word => word
where
  /-- Each step of the loop removes at most one of two blanks and then moves on. -/
  singleBlanks : Str → Str
    | ' ' :: ' ' :: text => ' ' :: singleBlanks text
    | ch :: text => ch :: singleBlanks text
    | [] => []

/-- `(SELECT id FROM word WHERE word = "...")`, or the literal -1. -/
inductive Scalar where
  | selectId (word : Str)
  | minusOne

inductive Statement where
  | insertWord (id : Int) (word : Str)
  | insertSynonym (a aLast b bLast : Scalar) (fileid : Int) (line : Str)
  | insertEntry (clause : Bool) (id : Int) (verb subjects objects adverbs questionword : Scalar)
      (prio fileid : Int) (line : Str) (rel : Int) (truth : Str) (onlyLogic : Bool)
  | insertFlags (clause : Bool) (fact : Int) (flags : VerbFlags)
  | insertIndex (word : Scalar) (fact table : Int)
  | deleteRecord (key : Str)
  | deleteFileid (clause : Bool) (fileid : Int)
  | deleteSynonyms (fileid : Int)

inductive SqlError where
  | notUnique
  | other
deriving DecidableEq

/-- A text between double quotes. One inside ends the literal early, a syntax error. -/
def literal (text : Str) : Except SqlError Str :=
  if '"' ∈ text then .error .other else .ok text

/-- A number that is written into the statement without quotes. -/
def numeral (text : Str) : Except SqlError Int :=
  match text with
  | '-' :: digits => (digitsOf digits).map (- ·)
  | digits => digitsOf digits
where
  digitsOf (digits : Str) : Except SqlError Int :=
    if digits ≠ [] ∧ digits.all Char.isDigit then .ok (Nat.ofDigitChars 10 digits 0 : Int)
    else .error .other

/-! Between double quotes SQLite takes the name of a column for the column. -/

def isName (names : List String) (text : Str) : Bool :=
  names.any fun name => name.toList == text.map Char.toLower

def idNames : List String := ["id", "rowid", "oid", "_rowid_"]

/-- The comparison with the text of a literal. -/
def WordRow.is (row : WordRow) (text : Str) : Bool :=
  if isName ["word"] text then true
  else if isName idNames text then row.word = Lib.signed row.id
  else row.word = text

def Database.wordId (db : Database) (text : Str) : Option Int :=
  (db.word.rows.find? (·.is text)).map (·.id)

def Database.scalar (db : Database) : Scalar → Except SqlError (Option Int)
  | .selectId word => do return db.wordId (← literal word)
  | .minusOne => .ok (some (-1))

def insertInto {ρ : Type} {clash : ρ → ρ → Bool} (t : Table clash) (row : ρ) :
    Except SqlError (Table clash) :=
  match t.insert row with
  | some t => .ok t
  | none => .error .notUnique

/-- `(SELECT id FROM facts ORDER BY id DESC LIMIT 1)` -/
def lastId (ids : List Int) : Option Int := ids.max?

/-- The record that a key stands for: `a` is the last one. -/
def Database.recordId (db : Database) (key : Str) : Except SqlError (Option Int) :=
  if key = ['a'] then .ok (lastId (db.facts.rows.map (·.id))) else (numeral key).map some

def Statement.exec : Statement → Database → Except SqlError Database
  | .insertWord id word, db => do
      let word ← literal word
      return { db with word := db.word.insertOrIgnore ⟨id, word⟩ }
  | .insertSynonym a aLast b bLast fileid line, db => do
      let row := ⟨← db.scalar a, ← db.scalar aLast, ← db.scalar b, ← db.scalar bLast, fileid,
        ← numeral line⟩
      return { db with synonym := db.synonym.insertOrIgnore row }
  | .insertEntry clause id verb subjects objects adverbs questionword prio fileid line rel truth
      onlyLogic, db => do
      let row := ⟨id, ← db.scalar verb, ← db.scalar subjects, ← db.scalar objects,
        ← db.scalar adverbs, ← db.scalar questionword, prio, fileid, ← numeral line, rel, truth,
        onlyLogic⟩
      if clause then return { db with clauses := ← insertInto db.clauses row }
      else return { db with facts := ← insertInto db.facts row }
  | .insertFlags clause fact flags, db => do
      if clause then return { db with relClauseFlag := ← insertInto db.relClauseFlag ⟨fact, flags⟩ }
      else return { db with relFactFlag := ← insertInto db.relFactFlag ⟨fact, flags⟩ }
  | .insertIndex word fact table, db => do
      let row := ⟨← db.scalar word, fact, table⟩
      return { db with relWordFact := db.relWordFact.insertOrIgnore row }
  | .deleteRecord key, db => do
      let id ← db.recordId key
      return { db with facts := db.facts.delete fun row => some row.id = id }
  | .deleteFileid clause fileid, db =>
      if clause then return { db with clauses := db.clauses.delete fun row => row.fileid = fileid }
      else return { db with facts := db.facts.delete fun row => row.fileid = fileid }
  | .deleteSynonyms fileid, db =>
      return { db with synonym := db.synonym.delete fun row => row.fileid = fileid }

end Freehal.Disk
