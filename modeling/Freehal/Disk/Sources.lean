import Freehal.Disk.Engine

/-!
# The files that facts come from

The table `files`, which `gen_sql_add_filename` writes and `disk_get_source` reads. A library is
the state of the engine together with that table, and with the file that each stored row was
added from.
-/

namespace Freehal.Disk

open Lib (Table)
open Universal (Config)

structure FileRow where
  id : Int
  filename : Str
deriving DecidableEq

def FileRow.clash (r s : FileRow) : Bool := r.id = s.id || r.filename = s.filename

abbrev Files := Table FileRow.clash

/-- `disk_add_filename`. An error is printed. -/
def diskAddFilename (files : Files) (filename : Str) : Files :=
  match literal filename with
  | .ok filename => files.insertOrIgnore ⟨fileid filename, filename⟩
  | .error _ => files

/-- The name and the line, nothing where the record or its file is not found. -/
def diskGetSource (db : Database) (files : Files) (key : Str) : Str :=
  match db.recordId key with
  | .ok (some id) =>
      match db.facts.rows.find? (·.id = id) with
      | some row =>
          match files.rows.find? (·.id = row.fileid) with
          | some file => file.filename ++ ':' :: Lib.signed row.line
          | none => []
      | none => []
  | _ => []

/-! ## Where rows come from -/

/-- The rows of a table with the file that each was added from. -/
abbrev Origins (ρ : Type) := List (ρ × Str)

/-- Rows that are gone are forgotten, new ones come from the file. -/
def Origins.update {ρ : Type} [DecidableEq ρ] (o : Origins ρ) (rows rows' : List ρ)
    (filename : Str) : Origins ρ :=
  o.filter (·.1 ∈ rows') ++ (rows'.filter (· ∉ rows)).map (·, filename)

structure Library where
  state : State
  files : Files
  facts : Origins FactRow
  clauses : Origins FactRow
  synonyms : Origins SynonymRow

def Library.fresh : Library := ⟨State.fresh, Table.empty, [], [], []⟩

/-- The file that an operation adds from. -/
def Operation.filename : Operation → Str
  | .addFact _ e => e.filename
  | .addClause _ _ e => e.filename
  | _ => []

inductive FileOperation where
  | operation (op : Operation)
  | addFilename (filename : Str)

def Library.step (cfg : Config) (l : Library) : FileOperation → Library
  | .operation op =>
      let s := Disk.step cfg l.state op
      { l with
        state := s
        facts := l.facts.update l.state.db.facts.rows s.db.facts.rows op.filename
        clauses := l.clauses.update l.state.db.clauses.rows s.db.clauses.rows op.filename
        synonyms := l.synonyms.update l.state.db.synonym.rows s.db.synonym.rows op.filename }
  | .addFilename filename => { l with files := diskAddFilename l.files filename }

/-- The names that were added to `files` or were there already. -/
def FileOperation.registered : FileOperation → Option Str
  | .operation _ => none
  | .addFilename filename => if '"' ∈ filename then none else some filename

/-- The first name with a number. -/
def firstNamed (ops : List FileOperation) (id : Int) : Option Str :=
  (ops.filterMap FileOperation.registered).find? (fileid · = id)

end Freehal.Disk
