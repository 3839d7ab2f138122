import Freehal.Grammar.Entity
import Freehal.Lib.Run

/-!
# The BOINC application

`main` and `boinc_parse` of `hal2012-boincapp.cpp`, as the file operations of a process, with
`print_graph` of `hal2012-grammar2012.cpp`. What the parser makes of a line is a parameter: tagger,
grammar and parser are built anew for each line.
-/

namespace Freehal.Boinc

open Grammar (Entity)
open Lib (decimal signed run)

/-! ## Graphs -/

def numbered (text : Str) (u : Nat) : Str := text ++ " (".toList ++ decimal u ++ ")".toList

def quoted (text : Str) : Str := '"' :: text ++ ['"']

def edge (key other : Str) : Str :=
  quoted key ++ " -> ".toList ++ quoted other ++ " [dir=none,weight=10];\n".toList

mutual
/-- `entity::print_graph`: the key, the text and the static counter `u` after the call. -/
def printGraph : Entity → Nat → Str × Str × Nat
  | ⟨data, symbol, repl, virt, text, embed, order⟩, u =>
      let key := numbered (virt.headD (Entity.toKey ⟨data, symbol, repl, virt, text, [], order⟩)) u
      let head := quoted key ++ " [shape=record,regular=1];\n".toList
      if text ≠ [] then
        let label := numbered text (u + 1)
        let style := " [shape=record,fontsize=14,style=filled,fillcolor=yellow,regular=1];\n"
        (key, head ++ quoted label ++ style.toList ++ edge key label, u + 2)
      else
        let (graphs, u) := printGraphs key embed (u + 1)
        (key, head ++ graphs, u)

def printGraphs (key : Str) : List Entity → Nat → Str × Nat
  | [], u => ([], u)
  | e :: es, u =>
      let (other, graph, u) := printGraph e u
      let (graphs, u) := printGraphs key es u
      (graph ++ edge key other ++ graphs, u)
end

/-- The parses of a sentence. -/
abbrev Parsed := List (List Entity)

def printAll : List Entity → Nat → Str × Nat
  | [], u => ([], u)
  | e :: es, u =>
      let (_, graph, u) := printGraph e u
      let (graphs, u) := printAll es u
      (graph ++ graphs, u)

/-- `grammar::print_graph`, which leaves its loop after the first parse. -/
def printParsed (parsed : Parsed) (u : Nat) : Str × Nat :=
  let (graphs, u) := printAll (parsed.headD []) u
  ("digraph parsed \x7b\n".toList ++ graphs ++ "\x7d\n".toList, u)

/-! ## Files -/

structure Disk where
  out : Str
  /-- The file `state`, if there is one. -/
  checkpoint : Option Str
deriving DecidableEq

/-- What reaches a file at once. Output is flushed at the end of each line that is written. -/
inductive FileStep where
  | openOutput
  | append (text : Str)
  | openCheckpoint
  | closeCheckpoint (text : Str)
deriving DecidableEq

def FileStep.apply (d : Disk) : FileStep → Disk
  | .openOutput => { d with out := [] }
  | .append text => { d with out := d.out ++ text }
  | .openCheckpoint => { d with checkpoint := some [] }
  | .closeCheckpoint text => { d with checkpoint := some text }

/-- The lines that `getline` gives. -/
def getLines (text : Str) : List Str :=
  let lines := text.splitOn '\n'
  if lines.getLast? = some [] then lines.dropLast else lines

/-- `fscanf` with `%d`; `none` when it does not return 1. -/
def scanNumber (text : Str) : Option Int :=
  let number (sign : Int) (text : Str) : Option Int :=
    let digits := text.takeWhile Char.isDigit
    if digits = [] then none else some (sign * Nat.ofDigitChars 10 digits 0)
  match text.dropWhile (· ∈ [' ', '\t', '\n', Char.ofNat 11, Char.ofNat 12, '\r']) with
  | '-' :: text => number (-1) text
  | '+' :: text => number 1 text
  | text => number 1 text

def Disk.readCheckpoint (d : Disk) : Option Int := d.checkpoint.bind scanNumber

/-! ## A process -/

variable (revision : Str) (parse : Str → List Parsed) (input : Str)

/-- The loop over the sentences of a line, with the number of the clause. -/
def writeSentences (line : Str) (sentence : Int) : List Parsed → Nat → Nat → List FileStep × Nat
  | [], _, u => ([], u)
  | s :: ss, clause, u =>
      let (graph, u) := printParsed s u
      let (steps, u) := writeSentences line sentence ss (clause + 1) u
      ([.append ("---- ".toList ++ revision ++ ';' :: signed sentence ++ ';' :: decimal clause
          ++ ['\n']),
        .append ("::input= ".toList ++ line ++ ['\n']),
        .append (graph ++ ['\n']),
        .append "---- \n".toList] ++ steps, u)

def boincParse (line : Str) (sentence : Int) (u : Nat) : List FileStep × Nat :=
  writeSentences revision line sentence (parse line) 1 u

/-- The loop over the lines, after `n` of them. -/
def mainLoop : List Str → Int → Nat → List FileStep
  | [], _, _ => []
  | line :: lines, n, u =>
      let (steps, u) := boincParse revision parse line (n + 1) u
      steps ++ [.openCheckpoint, .closeCheckpoint (signed (n + 1))] ++ mainLoop lines (n + 1) u

def seconds : List FileStep :=
  (List.range 60).map fun h => .append ("second ".toList ++ decimal h ++ ['\n'])

/-- The file operations of a process that starts with these files. -/
def mainSteps (d : Disk) : List FileStep :=
  let n := d.readCheckpoint.getD 0
  (if d.readCheckpoint.isSome then [] else [.openOutput])
    ++ mainLoop revision parse ((getLines input).drop n.toNat) n 1 ++ seconds

/-- The files when the process stops after `k` operations. -/
def interrupt (d : Disk) (k : Nat) : Disk :=
  run FileStep.apply d ((mainSteps revision parse input d).take k)

/-- The files when the process is not stopped. -/
def finish (d : Disk) : Disk := run FileStep.apply d (mainSteps revision parse input d)

/-- There are no files at first. -/
def noFiles : Disk := ⟨[], none⟩

end Freehal.Boinc
