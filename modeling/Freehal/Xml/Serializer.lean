import Freehal.Xml.XmlStreamIterator
import Mathlib.Data.List.DropRight

/-!
# Facts as texts

`XmlFact.StringSerializer`: printing facts (`XmlList.printXml`) and reading them back
(`XmlUtils.readXmlFacts`).
-/

namespace Freehal.Xml

def jtext (s : String) : JString := s.toList.map jchar

/-- The trees that `readTree` builds. An `XmlText` is a list of words, and no `XmlList` has its
name. -/
inductive XmlTree where
  | text (words : List JString)
  | list (name : JString) (embedded : List XmlTree)

/-! ## Words -/

def isWordChar (num : JChar) : Bool :=
  (jchar 'A' ≤ num && num ≤ jchar 'Z') || (jchar 'a' ≤ num && num ≤ jchar 'z') ||
    (jchar '0' ≤ num && num ≤ jchar '9') || (jtext "{}[]=)(_$-").contains num

/-- The words between runs of separators. -/
def splitFrom : Bool → JString → JString → List JString
  | _, word, [] => [word]
  | separator, word, num :: text =>
      if isWordChar num then splitFrom false (word ++ [num]) text
      else if separator then splitFrom true word text
      else word :: splitFrom true [] text

/-- `text.split(WORD_SEPARATOR)`: empty words at the end are left out. -/
def splitWords (text : JString) : List JString :=
  if text.all isWordChar then [text] else (splitFrom false [] text).rdropWhile (· = [])

/-! ## Printing -/

/-- The loop over the words of an `XmlText`. -/
def printWords : JString → List JString → JString
  | str, [] => str
  | str, word :: words =>
      printWords ((if str.length > 0 then str ++ [jchar ' '] else str) ++ word) words

def indent (level : Nat) : JString := List.replicate (2 * level) (jchar ' ')

mutual
def XmlTree.printXmlFrom (level secondlevel : Nat) : XmlTree → JString
  | .text words => printWords [] words
  | .list name embedded =>
      let level := if name = jtext "clause" then level + 1 else level
      let secondlevel := if name = jtext "clause" then 0 else secondlevel
      if name = jtext "synonyms" then printFirst level secondlevel embedded
      else
        jchar '<' :: name ++ [jchar '>'] ++ (if secondlevel = 0 then [jchar '\n'] else []) ++
          printEmbedded level secondlevel embedded ++
          (if secondlevel = 0 then indent level else []) ++
          jchar '<' :: jchar '/' :: name ++ [jchar '>']

/-- The loop over the embedded objects that stops after the first one. -/
def printFirst (level secondlevel : Nat) : List XmlTree → JString
  | [] => []
  | e :: _ => e.printXmlFrom level secondlevel

def printEmbedded (level secondlevel : Nat) : List XmlTree → JString
  | [] => []
  | e :: embedded =>
      (if secondlevel = 0 then indent (level + 1) else []) ++
        e.printXmlFrom level (secondlevel + 1) ++
        (if secondlevel = 0 then [jchar '\n'] else []) ++ printEmbedded level secondlevel embedded
end

def XmlTree.printXml (x : XmlTree) : JString := x.printXmlFrom 0 0

mutual
def XmlTree.getWords : XmlTree → List JString
  | .text words => words.filter (·.length > 0)
  | .list name embedded => if name ≠ jtext "truth" then embeddedWords embedded else []

def embeddedWords : List XmlTree → List JString
  | [] => []
  | e :: embedded => e.getWords ++ embeddedWords embedded
end

/-! ## Reading -/

def isDefault (line : JString) : Bool :=
  line = jtext "00000" || (jtext "0.50").isPrefixOf line

def normalValue (line : JString) : JString :=
  if (jtext "0.0").isPrefixOf line then jtext "0"
  else if (jtext "1.0").isPrefixOf line then jtext "1"
  else line

/-- What a line of text adds. -/
def readText (line : JString) : List XmlTree :=
  if isDefault line then [] else [.text (splitWords (normalValue line))]

/-- The loop of `readTree`. A line that is the last one is not looked at. -/
def readTreeLoop : Nat → JString → List JString → List XmlTree → List XmlTree × List JString
  | 0, _, lines, tree => (tree, lines)
  | _ + 1, _, [], tree => (tree, [])
  | _ + 1, _, [_], tree => (tree, [])
  | fuel + 1, tagname, line :: lines, tree =>
      if (jtext "</").isPrefixOf line then
        if line = jtext "</" ++ tagname then (tree, lines)
        else readTreeLoop fuel tagname lines tree
      else if (jtext "<").isPrefixOf line then
        let name := line.tail
        let sub := if name = jtext "text" then ([], lines) else readTreeLoop fuel name lines []
        readTreeLoop fuel tagname sub.2
          (if sub.1.length > 0 then tree ++ [.list name sub.1] else tree)
      else if line.length > 0 then readTreeLoop fuel tagname lines (tree ++ readText line)
      else readTreeLoop fuel tagname lines tree

/-- The embedded objects and the lines that are left. Every round takes a line at least. -/
def readTree (tagname : JString) (lines : List JString) (tree : List XmlTree) :
    List XmlTree × List JString :=
  readTreeLoop (lines.length + 1) tagname lines tree

def readFactsLoop : Nat → List JString → List XmlTree
  | 0, _ => []
  | _ + 1, [] => []
  | fuel + 1, line :: lines =>
      if line = jtext "<fact" then
        let fact := readTree (jtext "fact") lines []
        .list (jtext "fact") fact.1 :: readFactsLoop fuel fact.2
      else readFactsLoop fuel lines

/-- The facts of an input that is delivered in pieces. -/
def readXmlFacts (pieces : List JString) : List XmlTree :=
  readFactsLoop ((tokens pieces).length + 1) (tokens pieces)

/-! ## The serializer -/

def StringSerializer.toString (facts : List XmlTree) : JString := facts.flatMap XmlTree.printXml

def StringSerializer.fromString (serialized : JString) : List XmlTree := readXmlFacts [serialized]

end Freehal.Xml
