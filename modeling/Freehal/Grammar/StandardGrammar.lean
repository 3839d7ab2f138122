import Mathlib.Data.List.Sort
import Freehal.Lib.HashMap
import Freehal.Grammar.Entity

/-!
# The grammar and its reducer

Reading a grammar, expanding it and reducing a sentence (`StandardGrammar.java`). `none` stands
for an exception. Where the source iterates over a hash collection the order is the parameter
`ord`.
-/

namespace Freehal.Grammar
open Lib

abbrev Entities := List Entity

/-- A rule as it is applied: the entity it reduces to and its right-hand side. -/
abbrev Rule := Entity × Entities

structure StandardGrammar where
  symbolmapStrObj : HashMap Str Entity := []
  grammarmap : MultiHashMap Str Entities := []
  reducemap : List (MultiHashMap Str Rule) := []
  reducekeysSorted : List (List Str) := []

/-! ## Symbols -/

def StandardGrammar.addEntity (g : StandardGrammar) (e : Entity) : StandardGrammar :=
  { g with symbolmapStrObj := g.symbolmapStrObj.put e.toStr e }

def StandardGrammar.s2o (g : StandardGrammar) (str : Str) : Option Entity :=
  if str = "null".toList ∨ str = [] then none else g.symbolmapStrObj.get str

def StandardGrammar.addSymbol (g : StandardGrammar) (str : Str) :
    Option (Entity × StandardGrammar) :=
  match g.s2o str with
  | some key => some (key, g)
  | none => (Entity.new str).map fun key => (key, g.addEntity key)

def StandardGrammar.modifySymbol (g : StandardGrammar) (obj : Entity) (marker : List Str) :
    Option (Entity × StandardGrammar) :=
  (obj.modify marker).map fun modified => (modified, g.addEntity modified)

/-- `" k1 k2 ... "`, and nothing for the empty list. -/
def joined (ts : List Str) : Str := if ts = [] then [] else spaced ' ' ts

def allToKey (es : Entities) : Str := joined (es.map Entity.toKey)

def allToString (es : Entities) : Str := joined (es.map Entity.toStr)

/-! ## Reading a grammar -/

/-- `line.split("[ ]+")` for a line without leading blanks. -/
def splitBlanks (line : Str) : List Str :=
  if line = [] then [[]] else (line.splitOn ' ').filter (· ≠ [])

def StandardGrammar.addSymbols (g : StandardGrammar) (parts : List Str) :
    Option (Entities × StandardGrammar) :=
  parts.foldlM (fun (valueI, g) it => do
    let (valObj, g) ← g.addSymbol it
    some (if valObj.type = none then valueI else valueI ++ [valObj], g)) ([], g)

/-- The right-hand side on a line that begins with two blanks. -/
def StandardGrammar.readValue (g : StandardGrammar) (keyObj : Option Entity) (line : Str) :
    Option StandardGrammar := do
  let (valueI, g) ← g.addSymbols (splitBlanks (line.dropWhile (· = ' ')))
  let key ← keyObj
  some { g with grammarmap := g.grammarmap.put key.toKey valueI }

def readLine (state : StandardGrammar × Option Entity) (line : Str) :
    Option (StandardGrammar × Option Entity) :=
  if startsWith "#" line then some state
  else if line.getLast? = some ':' then do
    let (keyObj, g) ← state.1.addSymbol line.dropLast
    if startsWith "  " line.dropLast then
      some (← g.readValue (some keyObj) line.dropLast, some keyObj)
    else some (g, some keyObj)
  else if startsWith "  " line then do
    some (← state.1.readValue state.2 line, state.2)
  else some state

/-! ## The reducemap -/

def StandardGrammar.addRule (g : StandardGrammar) (reducemap : List (MultiHashMap Str Rule))
    (it : Str × Entities) : List (MultiHashMap Str Rule) :=
  match g.s2o it.1 with
  | none => reducemap
  | some target =>
      if target.repl = [] ∧ allToKey it.2 ≠ [] then
        let order := target.getOrder
        (reducemap ++ List.replicate (order + 1 - reducemap.length) []).modify order
          fun m => m.put (allToKey it.2) (target, it.2)
      else reducemap

/-- The set `reducekeys` of an order holds the keys of its map. -/
def StandardGrammar.buildReducemap (ord : HashOrder) (g : StandardGrammar) : StandardGrammar :=
  let reducemap := (g.grammarmap.entrySet ord).foldl g.addRule []
  { g with
    reducemap := reducemap
    reducekeysSorted := reducemap.map fun m =>
      (ord.enum (m.map (·.1))).insertionSort (fun a b => b.length ≤ a.length) }

/-! ## Expanding a grammar -/

/-- `newvalues`, the flag `complete` and the grammar whose symbol map grows. -/
structure Expansion where
  newvalues : List Entities
  complete : Bool
  grammar : StandardGrammar

/-- `Entities.add(entities, previous, grammar)` -/
def addModified (g : StandardGrammar) (it entities : Entities) (previous : Entity) :
    Option (Entities × StandardGrammar) :=
  entities.foldlM (fun (it, g) e => do
    let (e, g) ← g.modifySymbol e previous.getMarker
    some (it ++ [e], g)) (it, g)

/-- Add one replacement to every one of `newvalues`. -/
def addReplacement (g : StandardGrammar) (newvalues : List Entities) (replacement : Entities)
    (toReplace : Entity) : Option (List Entities × StandardGrammar) :=
  newvalues.foldlM (fun (vs, g) it => do
    let (it, g) ← addModified g it replacement toReplace
    some (vs ++ [it], g)) ([], g)

/-- Add each of the replacements to a copy of `it`. -/
def addReplacements (g : StandardGrammar) (it : Entities) (replacements : List Entities)
    (toReplace : Entity) : Option (List Entities × StandardGrammar) :=
  replacements.foldlM (fun (vs, g) replacement => do
    let (it, g) ← addModified g it replacement toReplace
    some (vs ++ [it], g)) ([], g)

def expandSymbol (ord : HashOrder) (grammarmap : MultiHashMap Str Entities) (x : Expansion)
    (toReplace : Entity) : Option Expansion :=
  if toReplace.type = some 'r' then
    match ord.enum (grammarmap.get toReplace.toKey), x.newvalues with
    | [], _ => some x
    | [replacement], vs => do
        let (vs, g) ← addReplacement x.grammar vs replacement toReplace
        some { x with newvalues := vs, grammar := g }
    | replacements, [it] => do
        let (vs, g) ← addReplacements x.grammar it replacements toReplace
        some { x with newvalues := vs, grammar := g }
    -- another run has to handle this symbol
    | _, vs => some { x with newvalues := vs.map (· ++ [toReplace]), complete := false }
  else some { x with newvalues := x.newvalues.map (· ++ [toReplace]) }

def expandEntry (ord : HashOrder) (grammarmap : MultiHashMap Str Entities) (g : StandardGrammar)
    (complete : Bool) (oldvalue : Entities) : Option Expansion :=
  oldvalue.foldlM (expandSymbol ord grammarmap) ⟨[[]], complete, g⟩

/-- The symbol map and the flag are shared by all entries; the new map replaces the old one. -/
def StandardGrammar.expandStep (ord : HashOrder) (g : StandardGrammar) :
    Option (StandardGrammar × Bool) := do
  let (g', complete, newGrammarmap) ← (g.grammarmap.entrySet ord).foldlM
    (fun (h, complete, newGrammarmap) it => do
      let x ← expandEntry ord g.grammarmap h complete it.2
      let newGrammarmap := x.newvalues.foldl (fun m v => MultiHashMap.put m it.1 v) newGrammarmap
      some (x.grammar, x.complete, newGrammarmap))
    (g, true, ([] : MultiHashMap Str Entities))
  some ({ g' with grammarmap := newGrammarmap }, complete)

/-- At most `fuel` steps; `none` also when they do not suffice. -/
def StandardGrammar.expand (ord : HashOrder) : Nat → StandardGrammar → Option StandardGrammar
  | 0, _ => none
  | fuel + 1, g => do
      let (g, complete) ← g.expandStep ord
      if complete then some (g.buildReducemap ord) else StandardGrammar.expand ord fuel g

def readGrammar (ord : HashOrder) (fuel : Nat) (lines : List Str) : Option StandardGrammar := do
  let (g, _) ← lines.foldlM readLine ({}, none)
  if lines = [] then some g else StandardGrammar.expand ord fuel (g.buildReducemap ord)

/-! ## The input -/

/-- The category of a word and what the tagger answers when it is asked for a name. -/
structure Tags where
  category : Option Str
  isName : Bool

/-- The classes of `Grammar.LexicalClass` by category. -/
def Tags.getLexicalClassForGrammar (t : Tags) : Str :=
  match t.category with
  | none => "q".toList
  | some c =>
      if c = "komma".toList then "d-komma".toList
      else if c = "v".toList then "d-verb".toList
      else if c = "art".toList then "d-article".toList
      else if c = "adj".toList then "d-adjective".toList
      else if c = "prep".toList then "d-preposition".toList
      else if c = "questionword".toList then "d-questionword".toList
      else if c = "linking".toList then "d-linking".toList
      else if c = "n".toList then (if t.isName then "d-title".toList else "d-noun".toList)
      else "q".toList

/-- `tags` is what `hasTags` leaves in the word, after the tagger was asked. -/
structure Word where
  word : Str
  tags : Option Tags

/-- The lexical class of a word that is not ignored. -/
def Word.lexicalClass (w : Word) : Option Str :=
  if w.word = [] ∨ w.word = "null".toList then none
  else w.tags.map Tags.getLexicalClassForGrammar

def Entity.newText (cls text : Str) : Option Entity :=
  (Entity.new cls).map fun e => { e with text := text }

/-- The lexical classes and the texts the sentence starts with. -/
def inputTokens (words : List Word) : List (Str × Str) :=
  ("d-^".toList, []) :: words.filterMap (fun w => w.lexicalClass.map (·, w.word))
    ++ [("d-$".toList, [])]

def parseInput (words : List Word) : Option Entities :=
  (inputTokens words).mapM fun t => Entity.newText t.1 t.2

/-! ## Reducing a sentence

The symbol map that `addEntity` writes is not read here. -/

/-- The inner loop of `replaceInList`: it ends where one of the lists ends. -/
def matchRun : Entities → Entities → Bool
  | v :: vec, f :: find => v.toKey = f.toKey && matchRun vec find
  | _, _ => true

/-- `foundList`: the entities of the run with the markers of the rule. -/
def foundList : Entities → Entities → Option Entities
  | v :: vec, f :: find => do
      let e ← v.modify f.getMarker
      some (e :: (← foundList vec find))
  | _, _ => some []

/-- The run `find` at the head of a sentence is replaced by one entity. -/
def replaceRun (find : Entities) (replacement : Entity) (vec : Entities) : Option Entities := do
  let e ← Entity.newEmbed replacement.toStr (← foundList vec find)
  some (e :: vec.drop find.length)

def replaceInList (find : Entities) (replacement : Entity) : Entities → Option Entities
  | [] => some []
  | v :: vec =>
      match find with
      | [] => some (v :: vec)
      | f :: fs =>
          if v.toKey = f.toKey && matchRun vec fs then replaceRun find replacement (v :: vec)
          else (replaceInList find replacement vec).map (v :: ·)

/-- `print` between braces, from the first dollar sign on if there is one. -/
def complexityKey (target : Entity) : Str :=
  let printed := '\x7b' :: target.toStr ++ ['\x7d']
  if '$' ∈ printed then '\x7b' :: printed.dropWhile (· ≠ '$') else printed

structure ReduceState where
  newWordsComplexityMap : HashMap Str (Nat × HashMap Str Entities) := []
  inThisStepReduceTo : Str := []
  found : Bool := false

/-- `newWordsComplexityMap` after the worse data of `key` was deleted, if the rule is better. -/
def ReduceState.improve (st : ReduceState) (key : Str) (complexity : Nat) : ReduceState :=
  let best := ((st.newWordsComplexityMap.get key).map (·.1)).getD 0
  if best < complexity then
    { newWordsComplexityMap := (st.newWordsComplexityMap.remove key).put key (complexity, [])
      inThisStepReduceTo := key
      found := true }
  else st

/-- The new sentence, and the old one too if the target is marked with a star. -/
def recordResult (key : Str) (oldWordsI newWordsI : Entities) (words : HashMap Str Entities) :
    HashMap Str Entities :=
  let words := words.put (allToString newWordsI) newWordsI
  if '*' ∈ key then words.put (allToString oldWordsI) oldWordsI else words

def applyRule (oldWordsI : Entities) (st : ReduceState) (rule : Rule) : Option ReduceState :=
  let key := complexityKey rule.1
  let best := ((st.newWordsComplexityMap.get key).map (·.1)).getD 0
  if st.inThisStepReduceTo ≠ [] ∧ key ≠ st.inThisStepReduceTo then some st
  else if rule.2.length < best then some st
  else do
    let st := st.improve key rule.2.length
    let newWordsI ← replaceInList rule.2 rule.1 oldWordsI
    let entry ← st.newWordsComplexityMap.get key
    let words := recordResult key oldWordsI newWordsI entry.2
    some { st with
      newWordsComplexityMap := st.newWordsComplexityMap.put key (entry.1, words) }

/-- The rules of one order whose keys occur in the sentence. -/
def matchingRules (ord : HashOrder) (oldWordsI : Entities) (rules : MultiHashMap Str Rule)
    (keys : List Str) : List Rule :=
  (keys.filter fun key => key <:+: allToKey oldWordsI).flatMap fun key => ord.enum (rules.get key)

/-- The orders are tried in turn until one of them has found something. -/
def reduceOrders (ord : HashOrder) (oldWordsI : Entities) (st : ReduceState) :
    List (MultiHashMap Str Rule × List Str) → Option ReduceState
  | [] => some st
  | (rules, keys) :: orders =>
      if st.found then some st
      else do
        let st ← (matchingRules ord oldWordsI rules keys).foldlM (applyRule oldWordsI) st
        reduceOrders ord oldWordsI st orders

def StandardGrammar.reduceStep (ord : HashOrder) (g : StandardGrammar) (oldWordsI : Entities) :
    Option (HashMap Str Entities) := do
  let st ← reduceOrders ord oldWordsI {} (g.reducemap.zip g.reducekeysSorted)
  some ((ord.enum st.newWordsComplexityMap).foldl
    (fun newWordsList entry => newWordsList.putAll (ord.enum entry.2.2)) [])

/-- A sentence that is reduced to the start symbol. -/
def isDone : Entities → Bool
  | [e] => e.toKey = "s-all".toList
  | _ => false

/-- One round over all sentences. -/
def StandardGrammar.reduceRound (ord : HashOrder) (g : StandardGrammar)
    (wordsList : HashMap Str Entities) : Option (HashMap Str Entities) :=
  (ord.enum wordsList).foldlM (fun newWordsList entities => do
    some (newWordsList.putAll (ord.enum (← g.reduceStep ord entities.2)))) []

def StandardGrammar.reduceLoop (ord : HashOrder) (g : StandardGrammar) :
    Nat → HashMap Str Entities → List Entities → Option (List Entities)
  | 0, _, finalList => some finalList
  | steps + 1, wordsList, finalList =>
      if wordsList = [] then some finalList
      else do
        let wordsList ← g.reduceRound ord wordsList
        g.reduceLoop ord steps wordsList
          (finalList ++ ((ord.enum wordsList).map (·.2)).filter isDone)

/-- The loop of the source runs for `step` from 0 to 50. -/
def StandardGrammar.reduce (ord : HashOrder) (g : StandardGrammar) (oldWordsI : Entities) :
    Option (List Entities) :=
  g.reduceLoop ord 51 [(allToString oldWordsI, oldWordsI)] []

def StandardGrammar.parse (ord : HashOrder) (g : StandardGrammar) (words : List Word) :
    Option (List Entities) := do
  g.reduce ord (← parseInput words)

end Freehal.Grammar
