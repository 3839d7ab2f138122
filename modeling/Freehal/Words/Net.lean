import Freehal.Lib.Block
import Freehal.Lib.Lists

/-!
# The net of words

The words in `hal2012-ram.c` and `hal2012-disk.c`: an array of buckets for the first two characters
of a name. A bucket grows by ten.
-/

namespace Freehal.Words

open Lib (Block)

/-- The bytes of a name. -/
abbrev Name := List UInt8

def code (c : Char) : Int := c.toNat

/-- `WRONG` -/
def wrong : Int := code 'z' - code 'a' + 2

/-- The macro `n`. -/
def n (ch : Int) : Int :=
  if 1 - code 'a' + ch ≤ 0 then wrong
  else if 1 - code 'a' + ch > 27 then wrong
  else 1 - code 'a' + ch

/-- A character is signed. -/
def charAt (name : Name) (j : Nat) : Int := (name.getD j 0).toInt8.toInt

/-- `i` -/
def row (name : Name) : Int := if 1 ≤ name.length then n (charAt name 0) else wrong

/-- `k` -/
def column (name : Name) : Int := if 2 ≤ name.length then n (charAt name 1) else wrong

/-- `struct word`, as far as it is interned. -/
structure WordObject where
  name : Name
  length : Nat

/-- The address of a word is its place in the order of allocation. -/
abbrev Pointer := Option Nat

/-- `struct flist` with words for facts. -/
structure Flist where
  list : Option (Block Pointer)
  size : Nat
  allocatedUntil : Nat

abbrev Row := Block (Option Flist)

/-- `ram_net` and `disk_net` -/
abbrev Net := Block (Option Row)

/-! ## Allocation -/

/-- `for (i = first; i <= last; ++i)` -/
def upTo (first last : Int) : List Int :=
  (List.range (last - first + 1).toNat).map fun j : Nat => first + j

/-- The rows that `ram_begin` allocates, and the buckets of each. -/
def ramIndices : List Int :=
  upTo (n (code 'a')) (n (code 'z')) ++ upTo (n (code '0')) (n (code '9')) ++ [wrong]

/-- The same in `disk_begin`. -/
def diskIndices : List Int := upTo (n (code 'a')) (n (code 'z')) ++ [wrong]

/-- `4+'z'-'a'` -/
def width : Nat := (4 + code 'z' - code 'a').toNat

def beginRow (indices : List Int) : Option Row :=
  indices.foldlM (fun row k => row.write k (some ⟨none, 0, 0⟩)) (Block.calloc width none)

def beginNet (indices : List Int) : Option Net := do
  let row ← beginRow indices
  indices.foldlM (fun net i => net.write i (some row)) (Block.calloc width none)

/-! ## Access -/

/-- `net[i][k]`. There is nothing behind a null pointer. -/
def Net.flist (net : Net) (i k : Int) : Option Flist := do
  let row ← net.read i
  let row ← row
  let flist ← row.read k
  flist

def Net.setFlist (net : Net) (i k : Int) (f : Flist) : Option Net := do
  let row ← net.read i
  let row ← row
  let row ← row.write k (some f)
  net.write i (some row)

/-- The loop over `g`. -/
def findIn (words : List WordObject) (list : Block Pointer) (name : Name) :
    List Nat → Option Pointer
  | [] => some none
  | g :: gs => do
      let pointer ← list.read g
      let address ← pointer
      let word ← words[address]?
      if name.length = word.length ∧ word.name = name then some (some address)
      else findIn words list name gs

/-- `get_word` in one net. There is no result when memory is read that is not there. -/
def getWordIn (net : Net) (words : List WordObject) (name : Name) : Option Pointer :=
  if name.length = 0 then some none
  else do
    let f ← net.flist (row name) (column name)
    match f.list with
    | none => some none
    | some list => findIn words list name (List.range f.size)

/-- The list with room for one more word. -/
def Flist.grown (f : Flist) : Flist :=
  if f.size = 0 then { f with list := some (Block.calloc 11 none), allocatedUntil := 10 }
  else if f.allocatedUntil ≤ f.size then
    { f with
      list := some ((f.list.getD ⟨[]⟩).realloc (f.allocatedUntil + 10 + 1))
      allocatedUntil := f.allocatedUntil + 10 }
  else f

/-- The part of `set_word` behind the look-up. -/
def insertWord (net : Net) (address : Nat) (name : Name) : Option Net := do
  let f ← net.flist (row name) (column name)
  let list ← f.grown.list
  let list ← list.write f.size (some address)
  net.setFlist (row name) (column name) { f.grown with list := some list, size := f.size + 1 }

/-! ## The two engines -/

inductive Engine where
  | ram
  | disk
deriving DecidableEq

structure Memory where
  engine : Engine
  ramNet : Net
  diskNet : Net
  words : List WordObject

/-- `ram_begin` and `disk_begin` -/
def begin (engine : Engine) : Option Memory := do
  return ⟨engine, ← beginNet ramIndices, ← beginNet diskIndices, []⟩

def ramGetWord (m : Memory) (name : Name) : Option Pointer := getWordIn m.ramNet m.words name

def diskGetWord (m : Memory) (name : Name) : Option Pointer := getWordIn m.diskNet m.words name

def getWord (m : Memory) (name : Name) : Option Pointer :=
  match m.engine with
  | .ram => ramGetWord m name
  | .disk => diskGetWord m name

def Memory.allocate (m : Memory) (name : Name) : Memory :=
  { m with words := m.words ++ [⟨name, name.length⟩] }

/-- A null pointer for a name is not modelled. -/
def ramSetWord (m : Memory) (name : Name) : Option (Memory × Pointer) :=
  if name.length = 0 then some (m, none)
  else do
    match ← getWord m name with
    | some word => return (m, some word)
    | none =>
        let net ← insertWord m.ramNet m.words.length name
        return ({ m.allocate name with ramNet := net }, some m.words.length)

def diskSetWord (m : Memory) (name : Name) : Option (Memory × Pointer) :=
  if name.length = 0 then some (m, none)
  else do
    match ← getWord m name with
    | some word => return (m, some word)
    | none =>
        let net ← insertWord m.diskNet m.words.length name
        return ({ m.allocate name with diskNet := net }, some m.words.length)

def setWord (m : Memory) (name : Name) : Option (Memory × Pointer) :=
  match m.engine with
  | .ram => ramSetWord m name
  | .disk => diskSetWord m name

/-- Calls of `set_word` with what they return. -/
def setWords (m : Memory) : List Name → Option (Memory × List Pointer)
  | [] => some (m, [])
  | name :: names => do
      let (m, word) ← setWord m name
      let (m, words) ← setWords m names
      return (m, word :: words)

end Freehal.Words
