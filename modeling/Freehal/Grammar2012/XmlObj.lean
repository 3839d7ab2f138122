import Freehal.Lib.Text
import Mathlib.Data.List.DropRight

/-!
# Trees of facts in `grammar2012`

Printing a tree (`xml_obj::print_xml`), ordering the tags into lines (`halxml_ordertags`) and
reading the facts back (`halxml_readtree`, `halxml_readfacts`).
-/

namespace Freehal.Grammar2012

/-- `TEXT` and `LIST`. -/
inductive XmlObj where
  | text (text : Str)
  | list (name : Str) (content : List XmlObj)

def isTrimmed (c : Char) : Bool :=
  c = ' ' || c = '\t' || c = '\n' || c = '\r' || c = '\x0c' || c = '\x0b'

def trim (str : Str) : Str := (str.dropWhile isTrimmed).rdropWhile isTrimmed

/-! ## Printing -/

def indent (level : Nat) : Str := List.replicate (2 * level) ' '

mutual
def XmlObj.printXmlFrom (level secondlevel : Nat) : XmlObj → Str
  | .text text => text
  | .list name content =>
      let level := if name = "clause".toList then level + 1 else level
      let secondlevel := if name = "clause".toList then 0 else secondlevel
      '<' :: name ++ ['>'] ++ (if secondlevel = 0 then ['\n'] else []) ++
        printContent level secondlevel content ++
        (if secondlevel = 0 then indent level else []) ++ '<' :: '/' :: name ++ ['>']

/-- The loop over the content. -/
def printContent (level secondlevel : Nat) : List XmlObj → Str
  | [] => []
  | x :: content =>
      (if secondlevel = 0 then indent (level + 1) else []) ++
        x.printXmlFrom level (secondlevel + 1) ++ (if secondlevel = 0 then ['\n'] else []) ++
        printContent level secondlevel content
end

def XmlObj.printXml (x : XmlObj) : Str := x.printXmlFrom 0 0 ++ ['\n']

/-! ## Ordering the tags -/

def isBlank (num : Char) : Bool := num = '\n' || num = '\r' || num = '\t' || num = ' '

/-- A character that is no blank, after `prev`. -/
def orderChar (prev num : Char) : Str :=
  if num = '>' then ['\n']
  else if prev = '<' then if num = '/' then ['>', '\n'] else ['<', '\n', num]
  else if num = '<' then if prev ≠ '>' then ['\n'] else []
  else [num]

/-- The loop of `halxml_ordertags` after the character `prev`. -/
def orderFrom : Char → Bool → Str → Str
  | _, _, [] => []
  | prev, space, num :: indata =>
      if isBlank num then
        (if !space && prev ≠ '>' then [' '] else []) ++ orderFrom num true indata
      else orderChar prev num ++ orderFrom num false indata

def halxmlOrdertags (indata : Str) : Str := orderFrom (Char.ofNat 0) false indata

/-- `getline` until the end. -/
def splitLines : Str → List Str
  | [] => []
  | c :: prestr =>
      if c = '\n' then [] :: splitLines prestr
      else
        match splitLines prestr with
        | [] => [[c]]
        | line :: lines => (c :: line) :: lines

/-! ## Reading -/

/-- `outOfRange` where an element behind the last line would be read. -/
inductive ReadError where
  | outOfRange
  | outOfFuel
deriving DecidableEq

/-- The texts that stand for default values of a truth value. -/
def isDefault (text : Str) : Bool := text = "00000".toList || "0.50".toList.isPrefixOf text

def normalValue (text : Str) : Str :=
  if "0.0".toList.isPrefixOf text then ['0']
  else if "1.0".toList.isPrefixOf text then ['1']
  else text

/-- What a line of text adds. -/
def readText (tagName text : Str) : List XmlObj :=
  if isDefault text then []
  else if tagName = "text".toList then [.text (trim (normalValue text))]
  else [.list "text".toList [.text (trim (normalValue text))]]

/-- The loop of `halxml_readtree`, from the line with the index `i` on. -/
def readtreeLoop :
    Nat → Str → List Str → List XmlObj → Except ReadError (List XmlObj × List Str)
  | 0, _, _, _ => .error .outOfFuel
  | _ + 1, _, [], content => .ok (content, [])
  | fuel + 1, tagName, line :: lines, content =>
      if line = ['>'] then
        match lines with
        | [] => .error .outOfRange
        | name :: rest =>
            if name = tagName then .ok (content, name :: rest)
            else readtreeLoop fuel tagName rest content
      else if line = ['<'] then
        match lines with
        | [] => .error .outOfRange
        | name :: rest => do
            let (embedded, rest) ← readtreeLoop fuel name rest []
            let content := if embedded.length > 0 then content ++ [.list name embedded] else content
            readtreeLoop fuel tagName rest.tail content
      else if line.length > 0 then
        readtreeLoop fuel tagName lines (content ++ readText tagName line)
      else readtreeLoop fuel tagName lines content

/-- The content of the tree and the lines from the index on where the reader stopped. Every round
takes a line at least. -/
def halxmlReadtree (tagName : Str) (lines : List Str) (content : List XmlObj) :
    Except ReadError (List XmlObj × List Str) :=
  readtreeLoop (lines.length + 1) tagName lines content

/-- The first loop of `halxml_readfacts`. -/
def countFacts : List Str → Except ReadError Nat
  | [] => .ok 0
  | [line] => if line = ['<'] then .error .outOfRange else .ok 0
  | line :: name :: lines =>
      if line = ['<'] then do
        let size ← countFacts lines
        return if name = "fact".toList then size + 1 else size
      else countFacts (name :: lines)

/-- The second loop, with the facts in the order of `insert_fact`. -/
def readfactsLoop : Nat → List Str → Except ReadError (List XmlObj)
  | 0, _ => .error .outOfFuel
  | _ + 1, [] => .ok []
  | fuel + 1, line :: lines =>
      if line = ['<'] then
        match lines with
        | [] => .error .outOfRange
        | name :: rest =>
            if name = "fact".toList then do
              let (content, rest) ← halxmlReadtree "fact".toList rest []
              let facts ← readfactsLoop fuel rest.tail
              return .list "fact".toList content :: facts
            else readfactsLoop fuel rest
      else readfactsLoop fuel lines

def halxmlReadfacts (prestr : Str) : Except ReadError (List XmlObj) := do
  let lines := splitLines prestr
  let _ ← countFacts lines
  readfactsLoop (lines.length + 1) lines

/-- Reading what was printed. -/
def reread (facts : List XmlObj) : Except ReadError (List XmlObj) :=
  halxmlReadfacts (halxmlOrdertags (facts.flatMap XmlObj.printXml))

end Freehal.Grammar2012
