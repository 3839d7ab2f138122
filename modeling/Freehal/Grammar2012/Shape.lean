import Freehal.Grammar2012.XmlObj
import Mathlib.Data.List.Chain

/-!
# The shape of the trees that the parser produces

The texts and lists of a tree as they come out of the parser, and what of them the reader tells
apart.
-/

namespace Freehal.Grammar2012

/-! ## Texts -/

/-- A part of a text without tags: the blanks are single spaces. -/
structure Spaced (text : Str) : Prop where
  space : ∀ c ∈ text, isBlank c → c = ' '
  single : text.IsChain fun c d => ¬ (c = ' ' ∧ d = ' ')
  lt : '<' ∉ text
  gt : '>' ∉ text

structure PlainText (text : Str) : Prop extends Spaced text where
  ne_nil : text ≠ []
  trimmed : trim text = text

/-- The name of a tag as `halxml_ordertags` keeps it. -/
structure TagName (name : Str) : Prop where
  spaced : Spaced name
  head : ∃ c rest, name = c :: rest ∧ isBlank c = false ∧ c ≠ '/'

/-! ## Trees -/

def XmlObj.isText : XmlObj → Bool
  | .text _ => true
  | .list _ _ => false

/-- No two texts follow each other. -/
def Separated (content : List XmlObj) : Prop :=
  content.IsChain fun x y => ¬ (x.isText = true ∧ y.isText = true)

mutual
/-- Plain texts that are not adjacent, and no empty lists. -/
def XmlObj.Shaped : XmlObj → Prop
  | .text text => PlainText text
  | .list _ content => content ≠ [] ∧ Separated content ∧ ShapedAll content

def ShapedAll : List XmlObj → Prop
  | [] => True
  | x :: content => x.Shaped ∧ ShapedAll content
end

def XmlObj.IsFact (x : XmlObj) : Prop := ∃ content, x = .list "fact".toList content

mutual
/-- The texts are in lists of that name and are no values that the reader normalises. -/
def XmlObj.Normal (tagName : Str) : XmlObj → Prop
  | .text text => tagName = "text".toList ∧ isDefault text = false ∧ normalValue text = text
  | .list name content => TagName name ∧ NormalAll name content

def NormalAll (tagName : Str) : List XmlObj → Prop
  | [] => True
  | x :: content => x.Normal tagName ∧ NormalAll tagName content
end

/-- A fact that is read as it was printed. -/
structure XmlObj.Kept (x : XmlObj) : Prop where
  fact : x.IsFact
  shaped : x.Shaped
  normal : x.Normal []

end Freehal.Grammar2012
