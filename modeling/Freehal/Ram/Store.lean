import Freehal.Disk.QueryCache
import Freehal.Lib.Block

/-!
# The engine in memory

Insertion into the net, the table of facts by key and the clauses of a fact, after `hal2012-ram.c`.
A fact is addressed by its place in the order of allocation. The words of the net are interned, so a
word is its name.
-/

namespace Freehal.Ram

open Universal (Word isBad)
open Disk (divideWords)
open Lib (Block)

/-- A pointer to a fact. -/
abbrev Pointer := Option Nat

structure Fact extends Universal.Fact where
  clauses : Option (Block Pointer)
  line : Str
  rel : Int
  onlyLogic : Bool
deriving DecidableEq

/-- The texts that both insertions take. The flags of the verb are not stored. -/
structure Columns where
  subjects : Str
  objects : Str
  verbs : Str
  adverbs : Str
  extra : Str
  questionword : Str
  filename : Str
  line : Str
  truth : Rat
deriving DecidableEq

def Columns.isRejected (c : Columns) : Bool :=
  (isBad c.subjects && isBad c.objects) && isBad c.verbs

/-- A fresh fact, with the other fields zero. -/
def Columns.fact (c : Columns) : Fact where
  subjects := divideWords c.subjects
  objects := divideWords c.objects
  verbs := divideWords c.verbs
  adverbs := divideWords c.adverbs
  extra := divideWords c.extra
  questionword := c.questionword
  filename := c.filename
  truth := c.truth
  pk := 0
  clauses := none
  line := c.line
  rel := 0
  onlyLogic := false

structure Engine where
  facts : List Fact
  /-- `related_facts` of each word of `ram_net` -/
  relatedFacts : Word → List Nat
  /-- `ram_fact_by_key` -/
  size : Nat
  allocatedUntil : Nat
  list : Block Pointer

/-- `ram_begin` -/
def ramBegin : Engine where
  facts := []
  relatedFacts := fun _ => []
  size := 0
  allocatedUntil := 0
  list := Block.calloc 1 none

def Engine.modifyFact (s : Engine) (fact : Nat) (f : Fact → Fact) : Engine :=
  { s with facts := s.facts.modify fact f }

/-! ## Insertion -/

def insertFactByListIntoRamNet (list : List Word) (fact : Nat) (s : Engine) : Engine :=
  let insert net word := Function.update net word (net word ++ [fact])
  { s with relatedFacts := (list.take 100).foldl insert s.relatedFacts }

def insertRamFactByKey (fact : Nat) (s : Engine) : Option Engine := do
  let grows := s.allocatedUntil ≤ s.size
  let allocatedUntil := if grows then s.allocatedUntil + 20 else s.allocatedUntil
  let list := if grows then s.list.realloc (allocatedUntil + 1) else s.list
  let list ← list.write s.size (some fact)
  return { s.modifyFact fact fun f => { f with pk := s.size, rel := 0 } with
    allocatedUntil := allocatedUntil
    list := list
    size := s.size + 1 }

/-- The loop over `pos`, with the number of slots up to the last one. -/
def freePos (clauses : Block Pointer) : Nat → Option Nat
  | 0 => do
      let _ ← clauses.read 20
      return 20
  | left + 1 => do
      match ← clauses.read (20 - (left + 1 : Nat)) with
      | none => return 20 - (left + 1)
      | some _ => freePos clauses left

/-- The fact behind a pointer that the table holds. -/
def Engine.factAt (s : Engine) (rel : Int) : Option (Nat × Fact) := do
  let pointer ← s.list.read rel
  let address ← pointer
  let fact ← s.facts[address]?
  return (address, fact)

def insertFactAtKey (rel : Int) (fact : Nat) (s : Engine) : Option Engine := do
  let (owner, f) ← s.factAt rel
  let clauses := f.clauses.getD (Block.calloc 21 none)
  let pos ← freePos clauses 20
  let clauses ← clauses.write pos (some fact)
  return (s.modifyFact fact fun f => { f with rel := rel }).modifyFact owner
    fun f => { f with clauses := some clauses }

def ramAddClause (rel : Int) (c : Columns) (s : Engine) : Option (Engine × Pointer) :=
  if c.isRejected then some (s, none)
  else do
    let fact := s.facts.length
    let s ← insertRamFactByKey fact { s with facts := s.facts ++ [c.fact] }
    let s ← insertFactAtKey rel fact s
    return (s, some fact)

def ramAddFact (c : Columns) (onlyLogic : Bool) (s : Engine) : Option (Engine × Pointer) :=
  if c.isRejected then some (s, none)
  else do
    let fact := s.facts.length
    let f := { c.fact with onlyLogic := onlyLogic }
    let s := { s with facts := s.facts ++ [f] }
    let s := insertFactByListIntoRamNet f.subjects fact s
    let s := insertFactByListIntoRamNet f.objects fact s
    let s := insertFactByListIntoRamNet f.adverbs fact s
    let s ← insertRamFactByKey fact s
    return (s, some fact)

/-! ## Searching -/

/-- The first twenty slots, copied. -/
def copyClauses (clauses : Block Pointer) : Nat → Block Pointer → Option (Block Pointer)
  | 0, copy => some copy
  | left + 1, copy => do
      let clause ← clauses.read (20 - (left + 1 : Nat))
      copyClauses clauses left (← copy.write (20 - (left + 1 : Nat)) clause)

/-- The array that is returned, or a null pointer. There is no result when a slot is read that
nothing was written to. -/
def ramSearchClauses (rel : Int) (s : Engine) : Option (Option (Block Pointer)) :=
  if rel ≤ s.size then do
    match ← s.list.read rel with
    | none => return none
    | some address =>
        let fact ← s.facts[address]?
        match fact.clauses with
        | none => return none
        | some clauses => return some (← copyClauses clauses 20 (Block.calloc 21 none))
  else some none

/-! ## Runs -/

inductive Insertion where
  | fact (columns : Columns) (onlyLogic : Bool)
  | clause (rel : Int) (columns : Columns)

def Insertion.columns : Insertion → Columns
  | .fact c _ => c
  | .clause _ c => c

def Insertion.insert : Insertion → Engine → Option (Engine × Pointer)
  | .fact c onlyLogic => ramAddFact c onlyLogic
  | .clause rel c => ramAddClause rel c

/-- The insertions, each with the pointer it returned. -/
abbrev Log := List (Insertion × Pointer)

/-- A run has no result when an insertion reads or writes a slot that it must not. -/
def runFrom (s : Engine) : List Insertion → Option (Engine × Log)
  | [] => some (s, [])
  | i :: is => do
      let (s, p) ← i.insert s
      let (s, log) ← runFrom s is
      return (s, (i, p) :: log)

def runInsertions (is : List Insertion) : Option (Engine × Log) := runFrom ramBegin is

end Freehal.Ram
