import Freehal.Index.FactIndex

/-!
# Trees of facts

`XmlObj.java` with `XmlList.java` and `XmlWord.java`: the words of a tree, its hash string and
its equality. The subclasses change nothing in these.
-/

namespace Freehal.Xml

/-- A text, or a tag with what is embedded. -/
inductive XmlObj where
  | word (text : Str)
  | list (name : Str) (embedded : List XmlObj)

mutual
/-- What `prepareWords` caches: the words below a truth value are left out. -/
def XmlObj.getWords : XmlObj → List Str
  | .word text => if text.length > 0 then [text] else []
  | .list name embedded => if name ≠ "truth".toList then getWordsAll embedded else []

def getWordsAll : List XmlObj → List Str
  | [] => []
  | e :: embedded => e.getWords ++ getWordsAll embedded
end

mutual
def XmlObj.hashString : XmlObj → Str
  | .word text => text
  | .list name embedded => name ++ hashStrings embedded

def hashStrings : List XmlObj → Str
  | [] => []
  | e :: embedded => ' ' :: (e.hashString ++ hashStrings embedded)
end

/-! ## Hash codes -/

/-- The values of the chars of a text. -/
def utf16 (c : Char) : List Nat :=
  if c.toNat < 0x10000 then [c.toNat]
  else [0xD800 + (c.toNat - 0x10000) / 0x400, 0xDC00 + (c.toNat - 0x10000) % 0x400]

/-- `String.hashCode` in the arithmetic of `int`. -/
def stringHashCode (s : Str) : BitVec 32 :=
  (s.flatMap utf16).foldl (fun h c => 31 * h + BitVec.ofNat 32 c) 0

def XmlObj.hashCode (x : XmlObj) : Int := (stringHashCode x.hashString).toInt

def XmlObj.equals (x y : XmlObj) : Bool := x.hashCode = y.hashCode

/-- Facts as the index of facts sees them. -/
def xmlFacts : Index.Facts XmlObj := ⟨XmlObj.getWords, XmlObj.hashCode⟩

/-- The hash set of some facts. -/
def hashSet (facts : List XmlObj) : List XmlObj := facts.foldl (Index.hashSetAdd xmlFacts) []

end Freehal.Xml
