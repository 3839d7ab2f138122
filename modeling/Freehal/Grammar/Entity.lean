import Freehal.Lib.Text

/-!
# Entities

The symbols of a grammar and the nodes of a parse tree (`Entity.java`).
-/

namespace Freehal.Grammar
open Lib

/-- `order` is -1 as long as no number was read; `embed` holds the children of a node. -/
structure Entity where
  data : Str := []
  symbol : Str := []
  repl : Str := []
  virt : List Str := []
  text : Str := []
  embed : List Entity := []
  order : Int := -1

mutual
def Entity.decEq : (a b : Entity) → Decidable (a = b)
  | ⟨d, s, r, v, t, es, o⟩, ⟨d', s', r', v', t', es', o'⟩ =>
      match Entity.decEqList es es' with
      | isFalse h => isFalse (by simp [h])
      | isTrue h =>
          decidable_of_iff (d = d' ∧ s = s' ∧ r = r' ∧ v = v' ∧ t = t' ∧ o = o')
            (by simp [h])

def Entity.decEqList : (as bs : List Entity) → Decidable (as = bs)
  | [], [] => isTrue rfl
  | [], _ :: _ => isFalse (by simp)
  | _ :: _, [] => isFalse (by simp)
  | a :: as, b :: bs =>
      match Entity.decEq a b with
      | isFalse h => isFalse (by simp [h])
      | isTrue h =>
          match Entity.decEqList as bs with
          | isFalse h' => isFalse (by simp [h'])
          | isTrue h' => isTrue (by rw [h, h'])
end

instance : DecidableEq Entity := Entity.decEq

/-! ## Reading a symbol -/

def startsWith (p : String) (part : Str) : Bool := p.toList.isPrefixOf part

/-- The line terminator before which `$` matches at the end of a text. -/
def dropTerminator (part : Str) : Str :=
  match part.reverse with
  | '\n' :: '\r' :: rest => rest.reverse
  | c :: rest =>
      if c ∈ ['\n', '\r', Char.ofNat 0x85, Char.ofNat 0x2028, Char.ofNat 0x2029] then rest.reverse
      else part
  | [] => []

/-- `RegexUtils.find(part, "^([0-9]+)$")` -/
def isOrder (part : Str) : Bool :=
  let digits := dropTerminator part
  digits ≠ [] && digits.all Char.isDigit

/-- `Integer.MAX_VALUE` -/
def intMax : Nat := 2147483647

/-- `Integer.parseInt` on a text that `isOrder` lets through; `none` is the exception. -/
def parseInt (part : Str) : Option Int :=
  if part.all Char.isDigit && Nat.ofDigitChars 10 part 0 ≤ intMax then
    some (Nat.ofDigitChars 10 part 0)
  else none

/-- One part of a symbol between slashes, in `Entity.init`. -/
def Entity.initPart (e : Entity) (part : Str) : Option Entity :=
  if part = [] ∨ part = "null".toList then some e
  else if isOrder part then (parseInt part).map fun n => { e with order := n }
  else if e.symbol = [] ∧ e.repl = [] ∧ e.data = [] then
    if startsWith "s-" part then some { e with symbol := part }
    else if startsWith "r-" part then some { e with repl := part }
    else if startsWith "d-" part then some { e with data := part }
    else some { e with virt := e.virt ++ [part] }
  else if startsWith "r-" part then some e
  else some { e with virt := e.virt ++ [part] }

def Entity.initParts (e : Entity) (parts : List Str) : Option Entity := parts.foldlM Entity.initPart e

/-- The empty parts that `split` drops at the end are ignored by the loop. -/
def Entity.init (e : Entity) (text : Str) : Option Entity := e.initParts (text.splitOn '/')

/-- `new Entity(grammar, text)` -/
def Entity.new (text : Str) : Option Entity := Entity.init {} text

/-- `new Entity(grammar, text, embed)` -/
def Entity.newEmbed (text : Str) (embed : List Entity) : Option Entity :=
  (Entity.new text).map fun e => { e with embed := embed }

/-! ## Printing a symbol -/

/-- The part of the key in front of the order. -/
def Entity.base (e : Entity) : Str :=
  if e.data ≠ [] then e.data else if e.symbol ≠ [] then e.symbol
  else if e.repl ≠ [] then e.repl else "null".toList

def Entity.toKey (e : Entity) : Str :=
  if 0 ≤ e.order then e.base ++ '/' :: decimal e.order.toNat else e.base

/-- The key followed by the markers. -/
def Entity.toLabel (e : Entity) : Str := e.toKey ++ e.virt.flatMap ('/' :: ·)

mutual
/-- `toString`; `toLogOutput` has the same text. -/
def Entity.toStr : Entity → Str
  | ⟨data, symbol, repl, virt, text, embed, order⟩ =>
      Entity.toLabel ⟨data, symbol, repl, virt, text, [], order⟩
        ++ (if text = [] then [] else ": '".toList ++ text ++ "'".toList)
        ++ (if embed = [] then [] else " < ".toList ++ Entity.toStrList embed ++ " > ".toList)

def Entity.toStrList : List Entity → Str
  | [] => []
  | e :: es => e.toStr ++ (if es = [] then [] else ", ".toList) ++ Entity.toStrList es
end

def Entity.type (e : Entity) : Option Char :=
  if e.data ≠ [] then some 'd' else if e.symbol ≠ [] then some 's'
  else if e.repl ≠ [] then some 'r' else if e.virt ≠ [] then some 'v' else none

def Entity.getMarker (e : Entity) : List Str := if e.virt ≠ [] then e.virt else [e.toStr]

def Entity.getOrder (e : Entity) : Nat := if 0 ≤ e.order then e.order.toNat else 1

/-- The copy made by `modifySymbol`, with the markers read into it. -/
def Entity.modify (e : Entity) (marker : List Str) : Option Entity :=
  e.init (marker.flatMap ('/' :: ·))

/-! ## The tree below an entity -/

mutual
/-- The entities without children below an entity, from left to right. -/
def Entity.leaves : Entity → List Entity
  | ⟨data, symbol, repl, virt, text, embed, order⟩ =>
      if embed = [] then [⟨data, symbol, repl, virt, text, [], order⟩]
      else Entity.leavesList embed

def Entity.leavesList : List Entity → List Entity
  | [] => []
  | e :: es => e.leaves ++ Entity.leavesList es
end

/-- What a leaf says about the input: its key and its text. -/
def Entity.token (e : Entity) : Str × Str := (e.toKey, e.text)

/-- The tokens of the leaves of a sentence, from left to right. -/
def yield (es : List Entity) : List (Str × Str) := (Entity.leavesList es).map Entity.token

end Freehal.Grammar
