import Freehal.Universal.Text
import Mathlib.Logic.Function.Basic

/-!
# Editing a fact in its source file

`fact_replace_in_source`, `fact_delete_from_source` and `fact_read_from_source`. A source is the
name of a file and the number of a fact in it, as `disk_get_source` writes them.
-/

namespace Freehal.Talk

open Universal (atoi strstr)

/-! ## Texts -/

/-- `replace` with the text read from left to right. What is found is skipped over. -/
def replaceFrom (rep wit : Str) : Nat → Str → Str
  | _, [] => []
  | skip + 1, _ :: text => replaceFrom rep wit skip text
  | 0, c :: text =>
      if rep.isPrefixOf (c :: text) then wit ++ replaceFrom rep wit (rep.length - 1) text
      else c :: replaceFrom rep wit 0 text

def replace (text rep wit : Str) : Str := replaceFrom rep wit 0 text

/-- `c_str`, as the functions of C see it. -/
def cStr (text : Str) : Str := text.takeWhile (· ≠ Char.ofNat 0)

def factTag : Str := "<fact>".toList

def hasFact (line : Str) : Bool := strstr (cStr line) factTag

/-- `ss >> line_int`. What is out of range is stored as the nearest `int`. -/
def extractInt (text : Str) : Int := max (-2147483648) (min 2147483647 (atoi text))

/-- The first two parts of a source. Nothing where the second one is read past the end. -/
def sourceParts (source : Str) : Option (Str × Str) :=
  match source.splitOn ':' with
  | filename :: line :: _ => some (filename, line)
  | _ => none

/-! ## Files -/

/-- The files, and the static variable of `fact_replace_in_source`. -/
structure Editor where
  files : Str → Option Str
  added : Bool

def Editor.fresh (files : Str → Option Str) : Editor := ⟨files, false⟩

def fileLines (text : Str) : List Str :=
  (replace (replace text ['\r', '\n'] ['\n']) ['\r'] []).splitOn '\n'

/-- The loop over the lines: `data` and `added`. -/
def replaceLoop (lineInt : Int) (replacement : Option Str) :
    List Str → Int → Bool → List Str × Bool
  | [], _, added => ([], added)
  | line :: lines, factNumber, added =>
      let factNumber := if hasFact line then factNumber + 1 else factNumber
      if factNumber = lineInt then
        match replacement, added with
        | some r, true =>
            let (data, added) := replaceLoop lineInt replacement lines factNumber true
            -- The variable is overwritten, but a second replacement finds nothing.
            (replace (r ++ ['\n']) ['\\', 'n'] ['\n'] :: data, added)
        | _, _ => replaceLoop lineInt replacement lines factNumber added
      else
        let (data, added) := replaceLoop lineInt replacement lines factNumber added
        (replace line ['\n'] [] :: data, added)

def factReplaceInSource (e : Editor) (source : Str) (replacement : Option Str) : Option Editor :=
  match sourceParts source with
  | none => none
  | some (filename, line) =>
      match e.files filename with
      | none => some e
      | some text =>
          let (data, added) :=
            replaceLoop (extractInt line) replacement (fileLines text) 0 e.added
          some ⟨Function.update e.files filename (some (data.flatMap (· ++ ['\n']))), added⟩

def factDeleteFromSource (e : Editor) (source : Str) : Option Editor :=
  factReplaceInSource e source none

/-- The loop over the lines: `entry`. -/
def readLoop (lineInt : Int) : List Str → Int → Str
  | [], _ => []
  | line :: lines, factNumber =>
      let factNumber := if hasFact line then factNumber + 1 else factNumber
      if factNumber = lineInt then line ++ ['\\', 'n'] ++ readLoop lineInt lines factNumber
      else readLoop lineInt lines factNumber

/-- Nothing where the file is not found. -/
def factReadFromSource (e : Editor) (source : Str) : Option Str :=
  match sourceParts source with
  | none => none
  | some (filename, line) =>
      (e.files filename).map fun text =>
        cStr (readLoop (extractInt line) (text.splitOnP (fun c => c = '\n' || c = '\r')) 0)

/-! ## Runs -/

inductive Edit where
  | replace (source replacement : Str)
  | delete (source : Str)

/-- Where the parts of the source are read past their end, nothing is said: the state stays. -/
def Editor.step (e : Editor) : Edit → Editor
  | .replace source r => (factReplaceInSource e source (some r)).getD e
  | .delete source => (factDeleteFromSource e source).getD e

/-- The source that is stored for the fact with the index `k` of a file. -/
def sourceOf (filename : Str) (k : Nat) : Str := filename ++ ':' :: Lib.decimal (k + 1)

/-! ## Files as sequences of blocks -/

/-- A line without its end. -/
structure Line where
  text : Str
  clean : ∀ c ∈ text, c ≠ '\n' ∧ c ≠ '\r' ∧ c ≠ Char.ofNat 0

def Line.blank : Line := ⟨[], by simp⟩

/-- The lines of a fact: only the first one holds `<fact>`. -/
structure Block where
  first : Line
  rest : List Line
  begins : hasFact first.text
  inside : ∀ l ∈ rest, hasFact l.text = false

def Block.lines (b : Block) : List Line := b.first :: b.rest

/-- The text has these lines. Each line has its own end, which the last one may lack. -/
inductive Written : List Line → Str → Prop where
  | nil : Written [] []
  | last (l : Line) (h : l.text ≠ []) : Written [l] l.text
  | lf (l : Line) {ls t} (h : Written ls t) : Written (l :: ls) (l.text ++ '\n' :: t)
  | crlf (l : Line) {ls t} (h : Written ls t) : Written (l :: ls) (l.text ++ '\r' :: '\n' :: t)

/-- The text is the sequence of the blocks. Blank lines may follow the last one. -/
def Consists (bs : List Block) (t : Str) : Prop :=
  ∃ j, Written (bs.flatMap Block.lines ++ List.replicate j Line.blank) t

/-- The text names the lines of the block, with `\n` after each and up to blank lines. -/
def Reads (b : Block) (entry : Str) : Prop :=
  ∃ ls : List Str, entry = ls.flatMap (· ++ ['\\', 'n']) ∧
    ls.filter (· ≠ []) = (b.lines.map Line.text).filter (· ≠ [])

/-- The file that consists of `bs` is rewritten with `b` in the place of the block `k`. -/
def Replaces (e : Editor) (filename : Str) (bs : List Block) (k : Nat) (r : Str) (b : Block) :
    Prop :=
  ∃ e' t, factReplaceInSource e (sourceOf filename k) (some r) = some e' ∧
    e'.files filename = some t ∧ Consists (bs.set k b) t

def Deletes (e : Editor) (filename : Str) (bs : List Block) (k : Nat) : Prop :=
  ∃ e' t, factDeleteFromSource e (sourceOf filename k) = some e' ∧
    e'.files filename = some t ∧ Consists (bs.eraseIdx k) t

def ReadsBack (e : Editor) (filename : Str) (bs : List Block) (k : Nat) : Prop :=
  ∃ entry c, factReadFromSource e (sourceOf filename k) = some entry ∧ bs[k]? = some c ∧
    Reads c entry

/-- Editing the block `k` of a file that consists of `bs` does what it is for. -/
structure Edits (e : Editor) (filename : Str) (bs : List Block) (k : Nat) (r : Str) (b : Block) :
    Prop where
  replaced : Replaces e filename bs k r b
  deleted : Deletes e filename bs k
  read : ReadsBack e filename bs k

end Freehal.Talk
