import Freehal.Lib.Cyclic
import Freehal.Reasoning.XmlObj

/-!
# Patterns

`Pattern.java` and `Patterns.java`: the patterns of a consequence fact, and matching a premise
with a fact. What throws has the result `none`.
-/

namespace Freehal.Reasoning

open Freehal.Xml (JString JChar jchar jtext)
open Freehal.Lib

/-! ## Trees -/

/-- The trees of a premise that match anything. -/
def isIgnoredTree (tagname : JString) : Bool :=
  tagname = jtext "truth" || tagname = jtext "questionword"

def isOuterTree (tagname : JString) : Bool :=
  tagname = jtext "subject" || tagname = jtext "object" || tagname = jtext "verb" ||
    tagname = jtext "adverbs" || tagname = jtext "fact" || tagname = jtext "premise" ||
    tagname = jtext "conclusion"

mutual
/-- A word on the left, whatever is on the right. -/
def wordMatches (text1 : JString) : XmlObj → Bool
  | .word text2 => text1 = text2
  | .var text2 _ => text1 = text2
  | .list _ _ embedded => anyWordMatches text1 embedded

def anyWordMatches (text1 : JString) : List XmlObj → Bool
  | [] => false
  | e2 :: embedded => wordMatches text1 e2 || anyWordMatches text1 embedded
end

/-! ## Texts -/

/-- The loop of a variable over the objects from position `j` on. The first object of `after` is
one of them only where the two texts are one object. -/
def variableWords (sameText : Bool) (after : List Nat) : Nat → List XmlObj → List XmlObj
  | _, [] => []
  | j, e2 :: right =>
      if sameText ∧ after.head? = some j then []
      else e2 :: variableWords sameText after (j + 1) right

/-- What an object of the premise finds at position `j` of the text of the fact. The facts that a
premise is matched with have texts of their own. -/
def matchesAt (l : XmlObj) (matches_l : XmlObj → VariableMap → Option (Bool × VariableMap))
    (emb2 : List XmlObj) (j : Nat) (variablemap : VariableMap) : Option (Bool × VariableMap) :=
  match l with
  | .var text1 after =>
      some (true, variablemap.put text1 (variableWords false after j (emb2.drop j)))
  | _ => emb2[j]?.bind fun r => matches_l r variablemap

/-- `k %= emb2.size()` throws for an empty text. -/
def wrap (k size : Nat) : Option Nat :=
  if size = 0 then none else some (if k % size ≥ size then 0 else k % size)

mutual
/-- `matches(left, right, variablemap)` with the map that it leaves. -/
def XmlObj.matches : XmlObj → XmlObj → VariableMap → Option (Bool × VariableMap)
  | .word text, right, variablemap => some (wordMatches text right, variablemap)
  | .var text _, right, variablemap => some (wordMatches text right, variablemap)
  | .list cls name embedded, right, variablemap =>
      if cls = .xmlText ∧ right.isText then
        matchesTexts embedded right.getEmbedded 0 variablemap
      else if isIgnoredTree name then some (true, variablemap)
      else if isOuterTree name ∧ right.isList then matchesAll embedded right variablemap
      else matchesAny embedded right variablemap
termination_by structural left => left

/-- Every object of an outer tree matches the part of its name. -/
def matchesAll : List XmlObj → XmlObj → VariableMap → Option (Bool × VariableMap)
  | [], _, variablemap => some (true, variablemap)
  | e1 :: embedded, right, variablemap => do
      let m ← e1.matches (right.part e1.getName) variablemap
      if m.1 then matchesAll embedded right m.2 else return (false, m.2)
termination_by structural embedded => embedded

def matchesAny : List XmlObj → XmlObj → VariableMap → Option (Bool × VariableMap)
  | [], _, variablemap => some (false, variablemap)
  | e1 :: embedded, right, variablemap => do
      let m ← e1.matches right variablemap
      if m.1 then return (true, m.2) else matchesAny embedded right m.2
termination_by structural embedded => embedded

/-- The loop over the objects `i` of the premise, from position `k` of the text of the fact on. -/
def matchesTexts : List XmlObj → List XmlObj → Nat → VariableMap → Option (Bool × VariableMap)
  | [], _, _, variablemap => some (true, variablemap)
  | l :: emb1, emb2, k, variablemap => do
      -- the inner loop runs while `k < emb2.size() * 2`
      let m ← cyclicSearch (matchesAt l (fun r vs => l.matches r vs) emb2) emb2.length
        (emb2.length * 2 - k) k variablemap
      let k ← wrap m.2.1 emb2.length
      if m.1 then matchesTexts emb1 emb2 k m.2.2 else return (false, m.2.2)
termination_by structural emb1 => emb1
end

/-! ## Patterns -/

structure Pattern where
  premise : XmlObj
  conclusion : XmlObj

def conclusionMarker : XmlObj :=
  .list .xmlList (jtext "is_conclusion") [fromText (jtext "1")]

/-- The conclusion with the variables, the marker and the fact it comes from. -/
def Pattern.conclude (p : Pattern) (xfact : XmlObj) (variablemap : VariableMap) : XmlObj :=
  let modifiedConclusion := (p.conclusion.copy.insertVariables variablemap).setName (jtext "fact")
  .list .xmlList modifiedConclusion.getName
    (modifiedConclusion.getEmbedded ++
      [conclusionMarker, .list .xmlList (jtext "origin") (addAll [] xfact)])

/-- The fact afterwards, and the result: the conclusion if the premise matches. -/
def Pattern.matches (p : Pattern) (xfact : XmlObj) : XmlObj × Option (Option XmlObj) :=
  let inserted := xfact.insertSynonyms nullSynonymProvider
  (inserted.1,
    if inserted.2 then do
      let m ← p.premise.matches inserted.1 []
      return if m.1 then some (p.conclude inserted.1 m.2) else none
    else none)

def Pattern.hashCode (p : Pattern) : BitVec 32 :=
  stringHashCode (p.premise.printText ++ p.conclusion.printText)

/-- `patterns.add(p)` -/
def addPattern (patterns : List Pattern) (p : Pattern) : List Pattern :=
  if patterns.any (·.hashCode = p.hashCode) then patterns else patterns ++ [p]

/-! ## Consequence facts -/

section

variable (toLowerCase : JString → JString)

/-- `Word.matches(Word) > 0` -/
def sameWord (word otherWord : JString) : Bool :=
  word = otherWord || toLowerCase word = toLowerCase otherWord

/-- Whether the sum over the embedded objects is positive. -/
def positive (name : JString) (matched : List Bool) : Bool :=
  if name = jtext "link_&" then matched.any id && matched.all id else matched.any id

mutual
/-- `XmlWord.matches(other) > 0`. The tag names of `other` are literals, as `==` wants it. -/
def wordContained (text : JString) : XmlObj → Option Bool
  | .word other => do
      let words ← wordOf text
      let otherWords ← if words.isEmpty then some [] else wordOf other
      return words.any fun word => otherWords.any (sameWord toLowerCase word)
  | .var other _ => do
      let words ← wordOf text
      let otherWords ← if words.isEmpty then some [] else wordOf other
      return words.any fun word => otherWords.any (sameWord toLowerCase word)
  | .list _ name embedded => return positive name (← wordContainedAll text embedded)

def wordContainedAll (text : JString) : List XmlObj → Option (List Bool)
  | [] => some []
  | e :: embedded => do return (← wordContained text e) :: (← wordContainedAll text embedded)
end

mutual
/-- `matches(other) > 0` -/
def XmlObj.contained : XmlObj → XmlObj → Option Bool
  | .word text, other => wordContained toLowerCase text other
  | .var text _, other => wordContained toLowerCase text other
  | .list _ name embedded, other => return positive name (← containedAll embedded other)

def containedAll : List XmlObj → XmlObj → Option (List Bool)
  | [], _ => some []
  | e :: embedded, other => do return (← e.contained other) :: (← containedAll embedded other)
end

variable (database : SynonymProvider)

/-- No word of the list fails. -/
def getConsequenceQuestionwords : XmlObj :=
  (XmlObj.insertSynonyms database
    (.list .xmlList [] [fromText (jtext "if"), fromText (jtext "when")])).1

/-- A clause with one of these question words. -/
def isPremise (clause : XmlObj) : Option Bool :=
  if clause.isList then
    (clause.part (jtext "questionword")).contained toLowerCase
      (getConsequenceQuestionwords database)
  else some false

def anyPremise : List XmlObj → Option Bool
  | [] => some false
  | clause :: clauses => do
      if ← isPremise toLowerCase database clause then return true else anyPremise clauses

def isConsequenceFact (xfact : XmlObj) : Option Bool :=
  anyPremise toLowerCase database (xfact.parts (jtext "clause"))

/-- The loop over the clauses among the objects of a fact: a premise is marked and renamed. -/
def renamePremises : List XmlObj → List (Bool × XmlObj) × Bool
  | [] => ([], true)
  | e :: embedded =>
      match if e.getName = jtext "clause" then isPremise toLowerCase database e else some false with
      | some premise =>
          let renamed := renamePremises embedded
          ((premise, if premise then e.setName (jtext "premise") else e) :: renamed.1, renamed.2)
      | none => ((e :: embedded).map (false, ·), false)

/-- The loop over the premises. A pattern inserts the synonyms into its premise, which is an object
of the fact. -/
def newPatterns (conclusion : XmlObj) : List (Bool × XmlObj) → List XmlObj × Option (List Pattern)
  | [] => ([], some [])
  | (false, e) :: embedded =>
      let made := newPatterns conclusion embedded
      (e :: made.1, made.2)
  | (true, premise) :: embedded =>
      let inserted := premise.insertSynonyms database
      if inserted.2 then
        let made := newPatterns conclusion embedded
        (inserted.1 :: made.1, made.2.map (⟨inserted.1, conclusion⟩ :: ·))
      else (inserted.1 :: embedded.map (·.2), none)

/-- What is no clause, and then the clauses that are no premises. -/
def conclusionOf (renamed : List (Bool × XmlObj)) : XmlObj :=
  let others := (renamed.filter (!·.1)).map (·.2)
  .list .xmlList (jtext "conclusion")
    (others.filter (·.getName ≠ jtext "clause") ++ others.filter (·.getName = jtext "clause"))

/-- `Patterns.createPatterns`: the fact afterwards, and the patterns. -/
def createPatterns (xfact : XmlObj) : XmlObj × Option (List Pattern) :=
  match isConsequenceFact toLowerCase database xfact, xfact with
  | some true, .list cls name embedded =>
      let renamed := renamePremises toLowerCase database embedded
      if renamed.2 then
        let made := newPatterns database (conclusionOf renamed.1) renamed.1
        (.list cls name made.1, made.2.map (·.foldl addPattern []))
      else (.list cls name (renamed.1.map (·.2)), none)
  | some _, _ => (xfact, some [])
  | none, _ => (xfact, none)

end

end Freehal.Reasoning
