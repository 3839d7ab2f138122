import Mathlib.Data.List.Basic

/-!
# Cutting a stream into tags and texts

`XmlUtils.XmlStreamIterator`. The input is what the given iterator delivers, piece by piece.
-/

namespace Freehal.Xml

/-- A `char` of a text. -/
abbrev JChar := UInt16

def jchar (c : Char) : JChar := c.toNat.toUInt16

abbrev JString := List JChar

def isBlank (num : JChar) : Bool :=
  num = jchar '\n' || num = jchar '\r' || num = jchar '\t' || num = jchar ' '

def maxBufferSize : Nat := 15 * 1024

def minBufferSize : Nat := 5 * 1024

/-- Between two calls `k` is 0 and `predata` empty. -/
structure XmlStreamIterator where
  input : List JString
  buffer : JString

/-- The loop of `fillBuffer`. -/
def appendInput : List JString → JString → XmlStreamIterator
  | [], buffer => ⟨[], buffer⟩
  | s :: input, buffer =>
      if buffer.length < maxBufferSize then appendInput input (buffer ++ s)
      else ⟨s :: input, buffer⟩

def XmlStreamIterator.fillBuffer (it : XmlStreamIterator) : XmlStreamIterator :=
  if it.buffer.length < minBufferSize then appendInput it.input it.buffer else it

/-- The variables of `next`. -/
structure Scan where
  predata : JString
  inTagname : Option Bool
  isSpace : Bool

def Scan.start : Scan := ⟨[], none, false⟩

/-- A blank: one is kept after other characters. -/
def Scan.blank (st : Scan) : Scan :=
  { st with
    predata := if !st.isSpace && st.predata.length > 0 then st.predata ++ [jchar ' ']
      else st.predata
    isSpace := true }

/-- A token with what is left of the buffer, or the end of the buffer. -/
inductive Scanned where
  | token (predata rest : JString)
  | ended (st : Scan)

/-- The inner loop of `next`, from `k` on. -/
def scan : JString → Scan → Scanned
  | [], st => .ended st
  | num :: rest, st =>
      if isBlank num then scan rest st.blank
      else
        let inTagname := st.inTagname.getD (num = jchar '<')
        if inTagname && num = jchar '>' then .token st.predata rest
        else if !inTagname && num = jchar '<' then .token st.predata (num :: rest)
        else scan rest ⟨st.predata ++ [num], some inTagname, false⟩

/-- The outer loop of `next`. Every round but the first one needs another piece. -/
def nextLoop : Nat → XmlStreamIterator → Nat → Scan → JString × XmlStreamIterator
  | 0, it, k, st => (st.predata, ⟨it.input, it.buffer.drop k⟩)
  | rounds + 1, it, k, st =>
      let it := it.fillBuffer
      if k < it.buffer.length then
        match scan (it.buffer.drop k) st with
        | .token predata rest => (predata, ⟨it.input, rest⟩)
        | .ended st => nextLoop rounds it it.buffer.length st
      else (st.predata, ⟨it.input, it.buffer.drop k⟩)

def XmlStreamIterator.next (it : XmlStreamIterator) : JString × XmlStreamIterator :=
  nextLoop (it.input.length + 2) it 0 .start

def XmlStreamIterator.hasNext (it : XmlStreamIterator) : Bool × XmlStreamIterator :=
  (decide (0 < it.fillBuffer.buffer.length), it.fillBuffer)

/-- The tokens of the loop over `hasNext` and `next`, at most so many. -/
def XmlStreamIterator.take : Nat → XmlStreamIterator → List JString
  | 0, _ => []
  | n + 1, it =>
      match it.hasNext with
      | (true, it) => it.next.1 :: it.next.2.take n
      | (false, _) => []

/-- All tokens: each of them takes a `char` at least. -/
def tokens (pieces : List JString) : List JString :=
  XmlStreamIterator.take pieces.flatten.length ⟨pieces, []⟩

/-! ## Where the buffer ends -/

/-- The first token of the text ends in it. -/
def HoldsToken (text : JString) : Prop :=
  ∃ num rest, text.dropWhile isBlank = num :: rest ∧
    if num = jchar '<' then jchar '>' ∈ rest else jchar '<' ∈ rest

/-- The cut is after a text, in front of the next tag or behind one of the blanks in between. -/
def BetweenTokens (before after : JString) : Prop :=
  (∃ num rest, before.dropWhile isBlank = num :: rest ∧ num ≠ jchar '<') ∧
  (after.dropWhile isBlank).head? = some (jchar '<') ∧
  (after.head? = some (jchar '<') ∨ ∃ num, before.getLast? = some num ∧ isBlank num)

/-- The buffer that `next` sees holds the token or all that is left, or it ends between two
tokens. -/
def XmlStreamIterator.Whole (it : XmlStreamIterator) : Prop :=
  HoldsToken it.fillBuffer.buffer ∨ it.fillBuffer.input.flatten = [] ∨
    BetweenTokens it.fillBuffer.buffer it.fillBuffer.input.flatten

/-- The iterator after so many calls of `next`. -/
def XmlStreamIterator.after : Nat → XmlStreamIterator → XmlStreamIterator
  | 0, it => it
  | n + 1, it => it.next.2.after n

end Freehal.Xml
