import Freehal.Grammar2012.XmlObj
import Freehal.Index.SynonymIndex

/-!
# The synonyms of `diskdb`

`diskdb::insert_synonym` with the parts of a fact that it prints. A shared pointer to a set is its
place in the order of allocation. Which facts are synonyms is a parameter: `is_synonym` counts
words in floating point numbers.
-/

namespace Freehal.Grammar2012

open Index (setAdd setAddAll)

/-! ## Parts of a fact -/

def XmlObj.name : XmlObj → Str
  | .text _ => []
  | .list name _ => name

def XmlObj.content : XmlObj → List XmlObj
  | .text _ => []
  | .list _ content => content

/-- `xml_obj::part`: the only part of this name, or the content of all of them. -/
def XmlObj.part (x : XmlObj) (tagName : Str) : XmlObj :=
  match x.content.filter (·.name = tagName) with
  | [subtree] => subtree
  | subtrees => .list tagName (subtrees.flatMap XmlObj.content)

mutual
def XmlObj.printText : XmlObj → Str
  | .text text => text
  | .list name content =>
      let delem := if name = "and".toList ∨ name = "or".toList then ' ' :: name ++ [' '] else [' ']
      printTexts delem content

/-- The texts of a content, with the delimiter between them. -/
def printTexts (delem : Str) : List XmlObj → Str
  | [] => []
  | [x] => x.printText
  | x :: y :: content => x.printText ++ delem ++ printTexts delem (y :: content)
end

/-! ## The map of synonyms -/

structure DiskDb where
  doAddSynonyms : Bool
  sets : List (List Str)
  synonyms : List (Str × Nat)

def DiskDb.find (db : DiskDb) (text : Str) : Option Nat := db.synonyms.lookup text

/-- `synonyms.insert`, which does not overwrite. -/
def DiskDb.insert (db : DiskDb) (text : Str) (syns : Nat) : DiskDb :=
  if (db.find text).isSome then db else { db with synonyms := db.synonyms ++ [(text, syns)] }

def DiskDb.classAt (db : DiskDb) (syns : Nat) : List Str := db.sets.getD syns []

def DiskDb.modifySet (db : DiskDb) (syns : Nat) (f : List Str → List Str) : DiskDb :=
  { db with sets := db.sets.modify syns f }

/-- The map after the four cases, and the set that gets both texts. -/
def DiskDb.join (db : DiskDb) (text1 text2 : Str) : DiskDb × Nat :=
  match db.find text1, db.find text2 with
  | some syns1, some syns2 =>
      if syns1 ≠ syns2 then
        ((db.modifySet syns1 (setAddAll · (db.classAt syns2))).insert text2 syns1, syns1)
      else (db, syns1)
  | some syns1, none => (db.insert text2 syns1, syns1)
  | none, some syns2 => (db.insert text1 syns2, syns2)
  | none, none =>
      let syns := db.sets.length
      (({ db with sets := db.sets ++ [[]] }.insert text1 syns).insert text2 syns, syns)

def DiskDb.insertTexts (db : DiskDb) (call : Str × Str) : DiskDb :=
  let (db, syns) := db.join call.1 call.2
  db.modifySet syns fun set => setAdd (setAdd set call.1) call.2

/-- The two texts of a synonym. -/
def synonymTexts (fact : XmlObj) : Str × Str :=
  ((fact.part "subject".toList).printText, (fact.part "object".toList).printText)

variable (isSynonym : XmlObj → Bool)

def DiskDb.insertSynonym (db : DiskDb) (fact : XmlObj) : DiskDb :=
  if !db.doAddSynonyms then db
  else if isSynonym fact then db.insertTexts (synonymTexts fact)
  else db

/-- A database without synonyms. -/
def DiskDb.new (doAddSynonyms : Bool) : DiskDb := ⟨doAddSynonyms, [], []⟩

end Freehal.Grammar2012
