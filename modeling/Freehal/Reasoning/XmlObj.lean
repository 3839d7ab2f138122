import Freehal.Xml.Serializer
import Freehal.Lib.HashMap

/-!
# Trees with the classes of their objects

`XmlObj.java` with its subclasses, as the reasoning uses them: unlike the words and the hash of a
tree, matching, copying and the insertion of synonyms depend on the class of every object.
-/

namespace Freehal.Reasoning

open Freehal.Xml (JString JChar jchar jtext XmlTree splitWords)
open Freehal.Lib

/-- The classes of lists. `OrOperation` and `AndOperation` add nothing to `XmlList`. -/
inductive ListClass where
  | xmlList
  | xmlText
  | xmlSynonyms
  | xmlFact
deriving DecidableEq

/-- A variable knows what is behind it by the positions in its text: `after` may hold the variable
itself. `before` is never read. -/
inductive XmlObj where
  | word (text : JString)
  | var (text : JString) (after : List Nat)
  | list (cls : ListClass) (name : JString) (embedded : List XmlObj)

/-! ## Access -/

def XmlObj.getName : XmlObj → JString
  | .list _ name _ => name
  | _ => []

def XmlObj.setName (tagname : JString) : XmlObj → XmlObj
  | .list cls _ embedded => .list cls tagname embedded
  | o => o

def XmlObj.getEmbedded : XmlObj → List XmlObj
  | .list _ _ embedded => embedded
  | _ => []

/-- `o instanceof XmlList` -/
def XmlObj.isList : XmlObj → Bool
  | .list _ _ _ => true
  | _ => false

/-- `o instanceof XmlText` -/
def XmlObj.isText : XmlObj → Bool
  | .list .xmlText _ _ => true
  | _ => false

/-- `o instanceof XmlVariable` -/
def XmlObj.isVariable : XmlObj → Bool
  | .var _ _ => true
  | _ => false

/-- `new XmlList()` -/
def newList : XmlObj := .list .xmlList [] []

/-- `embedded.addAll(o)`: a list is dissolved. -/
def addAll (embedded : List XmlObj) : XmlObj → List XmlObj
  | .list _ _ inner => embedded ++ inner
  | o => embedded ++ [o]

/-- `part(list, tagname)` -/
def XmlObj.parts (x : XmlObj) (tagname : JString) : List XmlObj :=
  x.getEmbedded.filter (·.getName = tagname)

def XmlObj.part (x : XmlObj) (tagname : JString) : XmlObj :=
  match x.parts tagname with
  | [] => newList
  | [o] => if o.isList then o else newList
  | os => .list .xmlList tagname (os.foldl addAll [])

/-! ## Texts -/

def isAlphanumeric (num : JChar) : Bool :=
  (jchar 'a' ≤ num && num ≤ jchar 'z') || (jchar 'A' ≤ num && num ≤ jchar 'Z') ||
    (jchar '0' ≤ num && num ≤ jchar '9')

/-- `[a-zA-Z0-9]*\$` at the beginning. -/
def closesVariable : JString → Bool
  | [] => false
  | num :: text => num = jchar '$' || (isAlphanumeric num && closesVariable text)

/-- `\$[a-zA-Z0-9]+\$` at the beginning. -/
def beginsVariable : JString → Bool
  | dollar :: num :: text => dollar = jchar '$' && isAlphanumeric num && closesVariable text
  | _ => false

/-- `RegexUtils.find(word, REGEX_VARIABLE)` -/
def findVariable (word : JString) : Bool := word.tails.any beginsVariable

def XmlObj.setAfter (after : List Nat) : XmlObj → XmlObj
  | .var text _ => .var text after
  | o => o

/-- The loop that tells every variable of a text what is behind it: `partOfList(list, i + i, 0)`. -/
def setAfters (embedded : List XmlObj) : List XmlObj :=
  embedded.mapIdx fun i o => o.setAfter ((List.range embedded.length).drop (i + i))

/-- The object that `fromText` makes of a word. -/
def ofWord (word : JString) : XmlObj := if findVariable word then .var word [] else .word word

/-- The loops of `XmlText.fromText` over the words of the text. -/
def ofWords (words : List JString) : XmlObj :=
  .list .xmlText (jtext "text") (setAfters (words.map ofWord))

def fromText (text : JString) : XmlObj := ofWords (splitWords text)

mutual
/-- The objects of a tree that was read. -/
def ofTree : XmlTree → XmlObj
  | .text words => ofWords words
  | .list name embedded => .list .xmlList name (ofTrees embedded)

def ofTrees : List XmlTree → List XmlObj
  | [] => []
  | e :: embedded => ofTree e :: ofTrees embedded
end

/-- `readXmlFact` starts with an `XmlFact`. -/
def ofFact : XmlTree → XmlObj
  | .text words => ofWords words
  | .list name embedded => .list .xmlFact name (ofTrees embedded)

/-! ## Printing -/

mutual
def XmlObj.printXmlFrom (level secondlevel : Nat) : XmlObj → JString
  | .word text => text
  | .var text _ => text
  | .list _ name embedded =>
      let level := if name = jtext "clause" then level + 1 else level
      let secondlevel := if name = jtext "clause" then 0 else secondlevel
      if name = jtext "synonyms" then printFirst level secondlevel embedded
      else if name = jtext "text" then printWords level secondlevel [] embedded
      else
        jchar '<' :: name ++ [jchar '>'] ++ (if secondlevel = 0 then [jchar '\n'] else []) ++
          printEmbedded level secondlevel embedded ++
          (if secondlevel = 0 then Xml.indent level else []) ++
          jchar '<' :: jchar '/' :: name ++ [jchar '>']

/-- The loop over the embedded objects that stops after the first one. -/
def printFirst (level secondlevel : Nat) : List XmlObj → JString
  | [] => []
  | e :: _ => e.printXmlFrom level secondlevel

def printWords (level secondlevel : Nat) : JString → List XmlObj → JString
  | str, [] => str
  | str, e :: embedded =>
      printWords level secondlevel
        ((if str.length > 0 then str ++ [jchar ' '] else str) ++ e.printXmlFrom level secondlevel)
        embedded

def printEmbedded (level secondlevel : Nat) : List XmlObj → JString
  | [] => []
  | e :: embedded =>
      (if secondlevel = 0 then Xml.indent (level + 1) else []) ++
        e.printXmlFrom level (secondlevel + 1) ++
        (if secondlevel = 0 then [jchar '\n'] else []) ++ printEmbedded level secondlevel embedded
end

def XmlObj.printXml (x : XmlObj) : JString := x.printXmlFrom 0 0

mutual
def XmlObj.printText : XmlObj → JString
  | .word text => text
  | .var text _ => text
  | .list _ name embedded =>
      printTexts (if name = jtext "and" || name = jtext "or" then
        jchar ' ' :: name ++ [jchar ' '] else [jchar ' ']) true embedded

/-- The delimiter stands before every object but the first one. -/
def printTexts (delem : JString) : Bool → List XmlObj → JString
  | _, [] => []
  | first, e :: embedded =>
      (if first then [] else delem) ++ e.printText ++ printTexts delem false embedded
end

/-! ## Hash codes -/

mutual
def XmlObj.hashString : XmlObj → JString
  | .word text => text
  | .var text _ => text
  | .list _ name embedded => name ++ hashStrings embedded

def hashStrings : List XmlObj → JString
  | [] => []
  | e :: embedded => jchar ' ' :: (e.hashString ++ hashStrings embedded)
end

/-- `String.hashCode` in the arithmetic of `int`. -/
def stringHashCode (s : JString) : BitVec 32 :=
  s.foldl (fun h c => 31 * h + BitVec.ofNat 32 c.toNat) 0

def XmlObj.hashCode (x : XmlObj) : BitVec 32 := stringHashCode x.hashString

/-! ## Words -/

/-- The constructor of `Word` throws for the text of a printed word. -/
def newWord (text : JString) : Option JString :=
  if text.tails.any (jtext "\x7bword=").isPrefixOf then none else some text

/-- `XmlWord.getWords()` -/
def wordOf (text : JString) : Option (List JString) :=
  if text.length > 0 then (newWord text).map ([·]) else some []

mutual
/-- The words below a truth value are left out. -/
def XmlObj.getWords : XmlObj → Option (List JString)
  | .word text => wordOf text
  | .var text _ => wordOf text
  | .list _ name embedded => if name ≠ jtext "truth" then getWordsAll embedded else some []

def getWordsAll : List XmlObj → Option (List JString)
  | [] => some []
  | e :: embedded => do return (← e.getWords) ++ (← getWordsAll embedded)
end

/-- `XmlWord.getWord()` takes the first of the words, and there may be none. -/
def getWord (text : JString) : Option JString := do (← wordOf text).head?

/-! ## Synonyms -/

/-- What a `SynonymProvider` returns for a word. -/
abbrev SynonymProvider := JString → List JString

/-- `NullSynonymProvider` -/
def nullSynonymProvider : SynonymProvider := fun _ => []

/-- `new XmlSynonyms(word, database)` -/
def newSynonyms (database : SynonymProvider) (word : JString) : XmlObj :=
  .list .xmlSynonyms (jtext "synonyms") ((word :: database word).map .word)

/-- What is inserted for an object of a text. -/
def toInsert (database : SynonymProvider) : XmlObj → Option XmlObj
  | .word text => (getWord text).map (newSynonyms database)
  | o => some o

/-- The loops over an `XmlText`, whose objects are replaced if no word fails. -/
def insertText (database : SynonymProvider) : XmlObj → XmlObj × Bool
  | .list cls name embedded =>
      match embedded.mapM (toInsert database) with
      | some inserted => (.list cls name (setAfters inserted), true)
      | none => (.list cls name embedded, false)
  | o => (o, true)

mutual
/-- The list afterwards, and whether no word failed: what is behind such a word stays as it is. -/
def XmlObj.insertSynonyms (database : SynonymProvider) : XmlObj → XmlObj × Bool
  | .list cls name embedded =>
      if cls = .xmlSynonyms then (.list cls name embedded, true)
      else
        let inserted := insertSynonymsAll database embedded
        (.list cls name inserted.1, inserted.2)
  | o => (o, true)

def insertSynonymsAll (database : SynonymProvider) : List XmlObj → List XmlObj × Bool
  | [] => ([], true)
  | e :: embedded =>
      let inserted := if e.isText then insertText database e else e.insertSynonyms database
      if inserted.2 then
        let rest := insertSynonymsAll database embedded
        (inserted.1 :: rest.1, rest.2)
      else (inserted.1 :: embedded, false)
end

/-! ## Copies and variables -/

mutual
/-- No class but `XmlWord` and `XmlList` has a copy of its own. -/
def XmlObj.copy : XmlObj → XmlObj
  | .word text => .word text
  | .var text _ => .word text
  | .list _ name embedded => .list .xmlList name (copyAll embedded)

def copyAll : List XmlObj → List XmlObj
  | [] => []
  | e :: embedded => e.copy :: copyAll embedded
end

/-- What the variables stand for. -/
abbrev VariableMap := HashMap JString (List XmlObj)

mutual
def XmlObj.insertVariables (variablemap : VariableMap) : XmlObj → XmlObj
  | .list cls name embedded => .list cls name (insertVariablesAll variablemap embedded)
  | o => o

/-- A word whose text is the name of a variable is replaced, too. -/
def insertVariablesAll (variablemap : VariableMap) : List XmlObj → List XmlObj
  | [] => []
  | .word text :: embedded =>
      (variablemap.get text).getD [.word text] ++ insertVariablesAll variablemap embedded
  | .var text after :: embedded =>
      (variablemap.get text).getD [.var text after] ++ insertVariablesAll variablemap embedded
  | .list cls name inner :: embedded =>
      (XmlObj.list cls name inner).insertVariables variablemap ::
        insertVariablesAll variablemap embedded
end

end Freehal.Reasoning
