import Freehal.Index.StandardDatabase
import Mathlib.Data.List.DropRight

/-!
# Tags and files of tags

`Tags.java`, `StandardTagger.writeTagsTo`, `MemoryTagContainer.add` with the containers in the
memory, and `DiskTagReader`. Files are read as they were written.
-/

namespace Freehal.Pos

open Index (readLines)
open Lib (HashMap)

/-! ## Tags and words -/

/-- What a file holds of a `Tags` object. -/
structure Tags where
  category : Option Str
  gender : Option Str
deriving DecidableEq

def Tags.toTagsFormat (tags : Tags) : Str :=
  tags.category.getD [] ++ (tags.gender.map ('|' :: ·)).getD []

/-- Which texts `Word.init` rejects with an exception. -/
def isRejected (word : Str) : Bool := decide ("\x7bword=".toList <:+: word)

structure Word where
  word : Str
  tag : Tags
  accepted : isRejected word = false
deriving DecidableEq

def Word.new (word : Str) (tag : Tags) : Option Word :=
  if h : isRejected word = false then some ⟨word, tag, h⟩ else none

/-- What `writeTagsTo` appends. -/
def Word.lines (word : Word) : Str :=
  word.word ++ ":\n".toList ++ word.tag.toTagsFormat ++ "\n".toList

def writeTagsTo (words : List Word) : Str := words.flatMap Word.lines

/-! ## Reading a line -/

/-- `\s` -/
def isSpace (c : Char) : Bool :=
  c ∈ [' ', '\t', '\n', Char.ofNat 11, Char.ofNat 12, '\r']

/-- `replaceAll("[\\s]+$", "")` on a line, which has no line break. The end of the text is also in
front of a line terminator that is none to `readLine`. -/
def trimRight (line : Str) : Str :=
  match line.getLast? with
  | none => []
  | some c =>
      if c ∈ [Char.ofNat 0x85, Char.ofNat 0x2028, Char.ofNat 0x2029] then
        line.dropLast.rdropWhile isSpace ++ [c]
      else line.rdropWhile isSpace

/-- The parts between separators without a backslash in front of them. -/
def partsFrom (splitBy : Char) : Bool → Str → List Str
  | _, [] => [[]]
  | escaped, c :: text =>
      if c = splitBy && !escaped then [] :: partsFrom splitBy false text
      else
        match partsFrom splitBy (c = '\\') text with
        | [] => [[c]]
        | part :: parts => (c :: part) :: parts

/-- `StringUtils.splitEscaped`. `split` drops empty parts at the end, unless it finds no separator.
The loop that replaces the escaped separators assigns to its own variable only. -/
def splitEscaped (text : Str) (splitBy : Char) : List Str :=
  match partsFrom splitBy false text with
  | [part] => [part]
  | parts => parts.rdropWhile (· = [])

/-- The tags that a line with these parts has. -/
def tagsOf : List Str → Option Tags
  | [_, category, gender] => some ⟨some category, some gender⟩
  | [_, category] => some ⟨some category, none⟩
  | _ => none

/-- The arguments of the call for a line. -/
def entryOf (line : Str) : Option (Str × Tags) := do
  let parts := splitEscaped (trimRight line) '|'
  let tags ← tagsOf parts
  return (← parts.head?, tags)

/-- The calls of `MemoryTagContainer.add` for a file. -/
def readTags (text : Str) : List (Str × Tags) := (readLines text).filterMap entryOf

/-! ## The containers -/

abbrev MemoryTagMap := HashMap Str Tags

def MemoryTagMap.add (map : MemoryTagMap) (text : Str) : MemoryTagMap :=
  (readTags text).foldl (fun map e => HashMap.put map e.1 e.2) map

abbrev MemoryTagList := List (Str × Tags)

def MemoryTagList.add (list : MemoryTagList) (text : Str) : MemoryTagList := list ++ readTags text

def MemoryTagList.get (list : MemoryTagList) (word : Str) : Option Tags :=
  (list.find? (·.1 = word)).map (·.2)

/-- What `get` returns at a line. -/
def searchLine (search line : Str) : Option Tags :=
  let line := trimRight line
  if search.isPrefixOf line then tagsOf (splitEscaped line '|') else none

/-- `DiskTagReader.get`, with one file. -/
def diskTagReaderGet (text word : Str) : Option Tags :=
  (readLines text).findSome? (searchLine (word ++ ['|']))

end Freehal.Pos
