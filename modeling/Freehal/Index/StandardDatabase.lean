import Freehal.Lib.HashMap
import Freehal.Lib.Text
import Mathlib.Logic.Function.Basic

/-!
# The caches of a database

`StandardDatabase`. The components keep what they build from a file on the disk, under the base
name of the file, as `FactIndex` does. Paths are absolute.
-/

namespace Freehal.Index

open Lib (HashMap HashOrder)

/-! ## Files -/

structure FreehalFile where
  directory : Str
  name : Str
deriving DecidableEq

abbrev Contents := List UInt8

inductive Entry where
  | file (contents : Contents)
  | directory (listFiles : List FreehalFile)

abbrev Disk := FreehalFile → Option Entry

/-- `(int) length()` -/
def intLength (contents : Contents) : Int := Int.bmod contents.length 4294967296

/-- `readLine` until the end, which gives an empty line. `acc` is the line so far. -/
def readLinesFrom : Bool → Str → Str → List Str
  | _, acc, [] => if acc = [] then [[]] else [acc, []]
  | skipLF, acc, c :: text =>
      if c = '\n' then
        if skipLF then readLinesFrom false [] text else acc :: readLinesFrom false [] text
      else if c = '\r' then acc :: readLinesFrom true [] text
      else readLinesFrom false (acc ++ [c]) text

def readLines (text : Str) : List Str := readLinesFrom false [] text

/-! ## The metadata -/

/-- `line.split(":")`. Empty parts at the end are dropped. -/
def splitColon (line : Str) : List Str :=
  if ':' ∈ line then ((line.splitOn ':').reverse.dropWhile (· = [])).reverse else [line]

/-- Whether there is a minus sign, and what follows the sign. -/
def signAndDigits : Str → Bool × Str
  | '-' :: digits => (true, digits)
  | '+' :: digits => (false, digits)
  | digits => (false, digits)

/-- `Integer.valueOf`; nothing is the exception. -/
def integerValueOf (text : Str) : Option Int :=
  let (negative, digits) := signAndDigits text
  let magnitude : Int := Nat.ofDigitChars 10 digits 0
  let value := if negative then -magnitude else magnitude
  if digits ≠ [] ∧ digits.all Char.isDigit ∧ -2147483648 ≤ value ∧ value ≤ 2147483647 then
    some value
  else none

def readEntry (line : Str) : Option (Str × Int) :=
  match splitColon line with
  | [name, length] => (integerValueOf length).map (name, ·)
  | _ => none

def readMetadata (text : Str) : HashMap Str Int :=
  HashMap.putAll [] ((readLines text).filterMap readEntry)

def writeEntry (e : Str × Int) : Str := e.1 ++ ':' :: Lib.signed e.2 ++ ['\n']

def writeMetadata (ord : HashOrder) (cacheFiles : HashMap Str Int) : Str :=
  (ord.enum cacheFiles).flatMap writeEntry

/-! ## Updating the caches -/

/-- `metadata` is the text of `files.csv`, `caches` what the components hold for a base name. -/
structure StandardDatabase (κ : Type) where
  disk : Disk
  metadata : Str
  caches : Str → Option κ
  cacheFiles : HashMap Str Int

section

variable {κ : Type} (ord : HashOrder) (build : FreehalFile → Contents → κ)

/-- Nothing was indexed yet. -/
def StandardDatabase.fresh : StandardDatabase κ := ⟨fun _ => none, [], fun _ => none, []⟩

/-- The components are given the facts of the file, from `startUpdateCache` to
`stopUpdateCache`. -/
def StandardDatabase.index (d : StandardDatabase κ) (file : FreehalFile) (contents : Contents) :
    StandardDatabase κ :=
  let cacheFiles := d.cacheFiles.put file.name (intLength contents)
  { d with
    caches := Function.update d.caches file.name (some (build file contents))
    cacheFiles
    metadata := writeMetadata ord cacheFiles }

/-- `updateCache` for a file. -/
def StandardDatabase.updateFile (d : StandardDatabase κ) (file : FreehalFile)
    (contents : Contents) : StandardDatabase κ :=
  if d.cacheFiles.get file.name = some (intLength contents) then d
  else d.index ord build file contents

/-- A file in a directory that is a database. -/
def databaseContents (disk : Disk) (file : FreehalFile) : Option Contents :=
  match disk file with
  | some (.file contents) => if ".xml".toList <:+: file.name then some contents else none
  | _ => none

def StandardDatabase.updateCache (d : StandardDatabase κ) (databaseFile : FreehalFile) :
    StandardDatabase κ :=
  match d.disk databaseFile with
  | some (.directory files) =>
      files.foldl (fun d file =>
        match databaseContents d.disk file with
        | some contents => d.updateFile ord build file contents
        | none => d) d
  | some (.file contents) => d.updateFile ord build databaseFile contents
  | none => d

/-! ## Histories -/

inductive Event where
  | edit (disk : Disk)
  | restart
  | updateCache (databaseFile : FreehalFile)

def StandardDatabase.step (d : StandardDatabase κ) : Event → StandardDatabase κ
  | .edit disk => { d with disk }
  | .restart => { d with cacheFiles := readMetadata d.metadata }
  | .updateCache databaseFile => d.updateCache ord build databaseFile

/-- The caches of the file are those built from its contents. -/
def StandardDatabase.Fresh (d : StandardDatabase κ) (file : FreehalFile) (contents : Contents) :
    Prop :=
  d.caches file.name = some (build file contents)

/-- The caches of the file are those built from a file of the same base name and length. -/
def StandardDatabase.SameLength (d : StandardDatabase κ) (file : FreehalFile)
    (contents : Contents) : Prop :=
  ∃ file' contents', file'.name = file.name ∧ intLength contents' = intLength contents ∧
    d.caches file.name = some (build file' contents')

end

/-- A name without line breaks. -/
def Plain (name : Str) : Prop := '\n' ∉ name ∧ '\r' ∉ name

/-- The names of the files that an edit leaves are without line breaks. -/
def Event.Plain : Event → Prop
  | .edit disk => ∀ file contents, disk file = some (.file contents) → Index.Plain file.name
  | _ => True

end Freehal.Index
