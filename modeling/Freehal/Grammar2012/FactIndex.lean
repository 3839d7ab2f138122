import Freehal.Grammar2012.XmlObj
import Freehal.Index.SynonymIndex
import Freehal.Lib.HashMap
import Mathlib.Logic.Function.Basic

/-!
# The index of facts on the disk

`database::prepare` with `diskdb`: the facts of a file are stored once more below the first letters
of their words, in files of the same base name. Which facts are synonyms is a parameter, as these
are stored elsewhere.
-/

namespace Freehal.Grammar2012

open Lib (HashMap HashOrder)
open Index (setAddAll)

/-! ## Words -/

def lc (data : Str) : Str := data.map Char.toLower

/-- `is_alpha() || is_digit() || is_any_of("\x7d\x7b][=-)(_")` in the classic locale. -/
def isWordChar (c : Char) : Bool :=
  c.isAlpha || c.isDigit || "\x7d\x7b][=-)(_".toList.contains c

/-- What `prepare_words` splits a text into. -/
structure Word where
  text : Str
  chars : text.all isWordChar = true

def Word.empty : Word := ⟨[], rfl⟩

def Word.cons (c : Char) (h : isWordChar c = true) (w : Word) : Word :=
  ⟨c :: w.text, by simp only [List.all_cons, h, w.chars, Bool.and_self]⟩

/-- `algo::split`. Separators that follow each other give empty words, which are skipped. -/
def splitWords : Str → List Word
  | [] => [Word.empty]
  | c :: text =>
      if h : isWordChar c = true then
        match splitWords text with
        | [] => [Word.empty.cons c h]
        | w :: ws => w.cons c h :: ws
      else Word.empty :: splitWords text

mutual
/-- `xml_obj::prepare_words` -/
def XmlObj.words : XmlObj → List Word
  | .text text => (splitWords text).filter fun w => 0 < w.text.length && w.text ≠ ['1']
  | .list name content => if name ≠ "truth".toList then wordsAll content else []

def wordsAll : List XmlObj → List Word
  | [] => []
  | x :: content => x.words ++ wordsAll content
end

/-! ## Keys -/

def keyLength : Nat := 4

/-- `diskdb_key` -/
def diskdbKey (word : Str) : Str :=
  let key := lc (word.take keyLength)
  key ++ List.replicate (keyLength - key.length) '_'

/-- `is_index_word` of a word without tags. -/
def isIndexWord (word : Str) : Bool :=
  !(["a".toList, "the".toList, "in".toList, "verb".toList, "von".toList, "der".toList,
    "die".toList, "das".toList, "ein".toList, "eine".toList].contains word)

/-- `is_index_word` of a word and the one before. -/
def isIndexPair (word1 word2 : Str) : Bool :=
  !(word1 = "(a)".toList && word2 = "name".toList)

/-- The keys that a fact is put under, with the word before. -/
def keysFrom : Str → List Word → List Str
  | _, [] => []
  | before, w :: ws =>
      let word := lc w.text
      (if isIndexWord word && isIndexPair before word then [diskdbKey word] else []) ++
        keysFrom word ws

def factKeys (fact : XmlObj) : List Str := keysFrom [] fact.words

/-! ## The facts of a file -/

/-- A pointer to a fact is its place among the facts. -/
structure IndexDb where
  filename : Str
  complete : Bool
  uniquefacts : List XmlObj
  index3chars : HashMap Str (List Nat)

def IndexDb.new : IndexDb := ⟨[], false, [], []⟩

def insertPointer (set : List Nat) (xfact : Nat) : List Nat :=
  if set.contains xfact then set else set ++ [xfact]

def insertKey (xfact : Nat) (index : HashMap Str (List Nat)) (key : Str) : HashMap Str (List Nat) :=
  index.put key (insertPointer ((index.get key).getD []) xfact)

variable (ord : HashOrder) (isSynonym : XmlObj → Bool)

def IndexDb.insertFact (idb : IndexDb) (xfact : XmlObj) : IndexDb :=
  if isSynonym xfact then idb
  else { idb with
    uniquefacts := idb.uniquefacts ++ [xfact]
    index3chars := (factKeys xfact).foldl (insertKey idb.uniquefacts.length) idb.index3chars }

/-- Reading a text of facts into a database. -/
def IndexDb.readfacts (idb : IndexDb) (instr : Str) : Except ReadError IndexDb := do
  let facts ← halxmlReadfacts (halxmlOrdertags instr)
  return facts.foldl (IndexDb.insertFact isSynonym) idb

def readXmlFactFile (filename instr : Str) : Except ReadError IndexDb :=
  if instr.length = 0 then .ok IndexDb.new
  else IndexDb.readfacts isSynonym { IndexDb.new with filename, complete := true } instr

/-! ## Files of facts -/

/-- The files in the directory of each key, by name. A file is a list of printed facts. -/
abbrev DiskIndex := Str → HashMap Str (List Str)

def IndexDb.printXml (idb : IndexDb) (xfacts : List Nat) : List Str :=
  (xfacts.filterMap (idb.uniquefacts[·]?)).map XmlObj.printXml

def storeKey (idb : IndexDb) (index : DiskIndex) (e : Str × List Nat) : DiskIndex :=
  let list := if idb.complete then [] else ((index e.1).get idb.filename).getD []
  let set := setAddAll (setAddAll [] list) (idb.printXml (ord.enum e.2))
  Function.update index e.1 ((index e.1).put idb.filename (ord.enum set))

def IndexDb.toDisk (idb : IndexDb) (index : DiskIndex) : DiskIndex :=
  (ord.enum idb.index3chars).foldl (storeKey ord idb) index

/-- The facts of all files in the directory of the key. -/
def IndexDb.fromDisk (idb : IndexDb) (index : DiskIndex) (key : Str) : Except ReadError IndexDb :=
  (ord.enum (index key)).foldlM (fun idb file => idb.readfacts isSynonym file.2.flatten) idb

def getFacts (index : DiskIndex) (word : Word) : Except ReadError (List XmlObj) := do
  let idb ← IndexDb.new.fromDisk ord isSynonym index (diskdbKey word.text)
  return idb.uniquefacts

/-! ## Preparing files and directories -/

abbrev Path := List Str

mutual
inductive Node where
  | file (contents : Str)
  | directory (entries : Entries)

/-- The entries of a directory in the order of their names. -/
inductive Entries where
  | nil
  | cons (name : Str) (node : Node) (entries : Entries)
end

def Entries.names : Entries → List Str
  | .nil => []
  | .cons name _ entries => name :: entries.names

mutual
def Node.Distinct : Node → Prop
  | .file _ => True
  | .directory entries => entries.names.Nodup ∧ entries.Distinct

def Entries.Distinct : Entries → Prop
  | .nil => True
  | .cons _ node entries => node.Distinct ∧ entries.Distinct
end

/-- No two entries of a directory have the same name. -/
structure Disk where
  root : Node
  distinct : root.Distinct

def Entries.find (name : Str) : Entries → Option Node
  | .nil => none
  | .cons name' node entries => if name' = name then some node else entries.find name

def Node.find : Node → Path → Option Node
  | node, [] => some node
  | .file _, _ :: _ => none
  | .directory entries, name :: p => (entries.find name).bind fun node => node.find p

/-- A regular file that is prepared. -/
abbrev Call := Path × Str

mutual
/-- The files that `prepare` comes to from a path that exists. -/
def Node.calls (p : Path) : Node → List Call
  | .file contents => [(p, contents)]
  | .directory entries => entries.calls p

def Entries.calls (p : Path) : Entries → List Call
  | .nil => []
  | .cons name node entries =>
      (if ".xml".toList.isSuffixOf name then node.calls (p ++ [name]) else []) ++ entries.calls p
end

def Disk.calls (disk : Disk) (p : Path) : List Call := ((disk.root.find p).map (Node.calls p)).getD []

def filename (p : Path) : Str := p.getLastD []

/-- `saved` is what `suspend` wrote last. A character of a file is a byte. -/
structure Database where
  disk : Disk
  files : HashMap Path Nat
  saved : HashMap Path Nat
  index : DiskIndex

def Database.new (disk : Disk) : Database := ⟨disk, [], [], fun _ => []⟩

def Database.prepareFile (d : Database) (call : Call) : Except ReadError Database :=
  if d.files.get call.1 = some call.2.length then .ok d
  else do
    let idb ← readXmlFactFile isSynonym (filename call.1) call.2
    return { d with
      index := idb.toDisk ord d.index
      files := d.files.put call.1 call.2.length }

def Database.suspend (d : Database) : Database := { d with saved := d.files }

def Database.prepare (d : Database) (p : Path) : Except ReadError Database := do
  let d ← (d.disk.calls p).foldlM (Database.prepareFile ord isSynonym) d
  return d.suspend

/-! ## Histories -/

inductive Event where
  | edit (disk : Disk)
  | restart
  | prepare (p : Path)

def Database.step (d : Database) : Event → Except ReadError Database
  | .edit disk => .ok { d with disk }
  | .restart => .ok { d with files := d.saved }
  | .prepare p => d.prepare ord isSynonym p

def runEvents (events : List Event) (d : Database) : Except ReadError Database :=
  events.foldlM (Database.step ord isSynonym) d

end Freehal.Grammar2012
