import Freehal.Reasoning.XmlObj

/-!
# Objects with word caches

Every object keeps the words that `getWords` found in it. A list takes over the `Word` objects of
what it embeds, so that `toggle` changes a word in the caches of the lists, too.
-/

namespace Freehal.WordCache

open Freehal.Xml (JString jchar jtext)
open Freehal.Lib
open Freehal.Reasoning (ListClass SynonymProvider XmlObj newWord)

/-- The texts of the `Word` objects, in the order in which they are made. -/
abbrev WordObjects := List JString

/-- An object with its `Word` objects: `none` where `isCachedWords` is not set. -/
inductive CachedObj where
  | word (isVariable : Bool) (text : JString) (cacheWords : Option (List Nat))
  | list (cls : ListClass) (name : JString) (embedded : List CachedObj)
      (cacheWords : Option (List Nat))

/-- What a method leaves, and whether it returned: it may throw in the middle. -/
structure Call (α : Type) where
  value : α
  words : WordObjects
  returned : Bool

/-! ## Access -/

def CachedObj.getEmbedded : CachedObj → List CachedObj
  | .list _ _ embedded _ => embedded
  | .word _ _ _ => []

/-- The words of a truth value are left out. -/
def CachedObj.isTruth : CachedObj → Bool
  | .list _ name _ _ => name = jtext "truth"
  | .word _ _ _ => false

/-- `o instanceof XmlText` -/
def CachedObj.isText : CachedObj → Bool
  | .list .xmlText _ _ _ => true
  | _ => false

/-- An `XmlWord` that is no `XmlVariable`. -/
def CachedObj.isPlain : CachedObj → Bool
  | .word false _ _ => true
  | _ => false

def CachedObj.cacheWords : CachedObj → Option (List Nat)
  | .word _ _ cs => cs
  | .list _ _ _ cs => cs

/-- The words in the cache, if there are any. -/
def CachedObj.cached (o : CachedObj) : List Nat := o.cacheWords.getD []

mutual
/-- An object without its caches. -/
def CachedObj.toXml : CachedObj → XmlObj
  | .word isVariable text _ => if isVariable then .var text [] else .word text
  | .list cls name embedded _ => .list cls name (toXmlAll embedded)

def toXmlAll : List CachedObj → List XmlObj
  | [] => []
  | e :: embedded => e.toXml :: toXmlAll embedded
end

mutual
/-- An object for which no words were asked yet. -/
def ofXml : XmlObj → CachedObj
  | .word text => .word false text none
  | .var text _ => .word true text none
  | .list cls name embedded => .list cls name (ofXmlAll embedded) none

def ofXmlAll : List XmlObj → List CachedObj
  | [] => []
  | e :: embedded => ofXml e :: ofXmlAll embedded
end

/-! ## Words -/

mutual
/-- The flag is set before the words are made. -/
def CachedObj.prepareWords : CachedObj → WordObjects → Call CachedObj
  | .word isVariable text (some cs), w => ⟨.word isVariable text (some cs), w, true⟩
  | .word isVariable text none, w =>
      if text.length > 0 then
        match newWord text with
        | some word => ⟨.word isVariable text (some [w.length]), w ++ [word], true⟩
        | none => ⟨.word isVariable text (some []), w, false⟩
      else ⟨.word isVariable text (some []), w, true⟩
  | .list cls name embedded (some cs), w => ⟨.list cls name embedded (some cs), w, true⟩
  | .list cls name embedded none, w =>
      if name ≠ jtext "truth" then
        let m := prepareAll embedded w
        ⟨.list cls name m.value.1 (some m.value.2), m.words, m.returned⟩
      else ⟨.list cls name embedded (some []), w, true⟩

/-- The loop over the embedded objects, with the words that it adds. -/
def prepareAll : List CachedObj → WordObjects → Call (List CachedObj × List Nat)
  | [], w => ⟨([], []), w, true⟩
  | e :: embedded, w =>
      let m := e.prepareWords w
      if m.returned then
        let rest := prepareAll embedded m.words
        ⟨(m.value :: rest.value.1, m.value.cached ++ rest.value.2), rest.words, rest.returned⟩
      else ⟨(m.value :: embedded, []), m.words, false⟩
end

def textOf (w : WordObjects) (c : Nat) : JString := w.getD c []

/-- The texts of the words, or `none` if it throws. -/
def CachedObj.getWords (o : CachedObj) (w : WordObjects) : Option (List JString) :=
  let m := o.prepareWords w
  if m.returned then some (m.value.cached.map (textOf m.words)) else none

/-! ## Toggling -/

/-- The loop over the words of an `XmlWord`: the words, whether one was set, and whether none of
them threw when it was set. -/
def toggleWords (tagger : JString → JString) : List Nat → WordObjects → WordObjects × Bool × Bool
  | [], w => (w, false, true)
  | c :: cs, w =>
      let word := tagger (textOf w c)
      if word ≠ textOf w c then
        match newWord word with
        | some _ =>
            let m := toggleWords tagger cs (w.set c word)
            (m.1, true, m.2.2)
        | none => (w.set c word, true, false)
      else toggleWords tagger cs w

mutual
/-- The object afterwards, and whether it was changed. -/
def CachedObj.toggle (tagger : JString → JString) : CachedObj → WordObjects → Call (CachedObj × Bool)
  | .word isVariable text cs, w =>
      let m := (CachedObj.word isVariable text cs).prepareWords w
      if m.returned then
        let toggled := toggleWords tagger m.value.cached m.words
        if toggled.2.1 ∧ toggled.2.2 then
          let text := List.intercalate [jchar ' '] (m.value.cached.map (textOf toggled.1))
          ⟨(.word isVariable text none, true), toggled.1, true⟩
        else ⟨(m.value, false), toggled.1, toggled.2.2⟩
      else ⟨(m.value, false), m.words, false⟩
  | .list cls name embedded cs, w =>
      let m := toggleAll tagger embedded w
      ⟨(.list cls name m.value.1 cs, m.value.2), m.words, m.returned⟩

def toggleAll (tagger : JString → JString) :
    List CachedObj → WordObjects → Call (List CachedObj × Bool)
  | [], w => ⟨([], false), w, true⟩
  | e :: embedded, w =>
      let m := e.toggle tagger w
      if m.returned then
        let rest := toggleAll tagger embedded m.words
        ⟨(m.value.1 :: rest.value.1, m.value.2 || rest.value.2), rest.words, rest.returned⟩
      else ⟨(m.value.1 :: embedded, m.value.2), m.words, false⟩
end

/-! ## Synonyms and variables -/

/-- `new XmlSynonyms(word, database)` -/
def newSynonyms (database : SynonymProvider) (word : JString) : CachedObj :=
  .list .xmlSynonyms (jtext "synonyms") ((word :: database word).map (.word false · none)) none

/-- The loop over the objects of a text: the objects, and what is inserted for them. `getWord`
takes the first of the words. -/
def toInsertAll (database : SynonymProvider) :
    List CachedObj → WordObjects → Call (List CachedObj × List CachedObj)
  | [], w => ⟨([], []), w, true⟩
  | t :: embedded, w =>
      if t.isPlain then
        let m := t.prepareWords w
        match if m.returned then m.value.cached.head? else none with
        | some c =>
            let rest := toInsertAll database embedded m.words
            ⟨(m.value :: rest.value.1, newSynonyms database (textOf m.words c) :: rest.value.2),
              rest.words, rest.returned⟩
        | none => ⟨(m.value :: embedded, []), m.words, false⟩
      else
        let rest := toInsertAll database embedded w
        ⟨(t :: rest.value.1, t :: rest.value.2), rest.words, rest.returned⟩

/-- What `insertSynonyms` does with a text. The cache of the text stays. -/
def CachedObj.insertText (database : SynonymProvider) : CachedObj → WordObjects → Call CachedObj
  | .list cls name embedded cs, w =>
      let m := toInsertAll database embedded w
      ⟨.list cls name (if m.returned then m.value.2 else m.value.1) cs, m.words, m.returned⟩
  | o, w => ⟨o, w, true⟩

mutual
def CachedObj.insertSynonyms (database : SynonymProvider) :
    CachedObj → WordObjects → Call CachedObj
  | .list cls name embedded cs, w =>
      if cls = .xmlSynonyms then ⟨.list cls name embedded cs, w, true⟩
      else
        let m := insertSynonymsEach database embedded w
        ⟨.list cls name m.value (if m.returned then none else cs), m.words, m.returned⟩
  | .word isVariable text cs, w => ⟨.word isVariable text cs, w, true⟩

def insertSynonymsEach (database : SynonymProvider) :
    List CachedObj → WordObjects → Call (List CachedObj)
  | [], w => ⟨[], w, true⟩
  | e :: embedded, w =>
      let m := if e.isText then e.insertText database w else e.insertSynonyms database w
      if m.returned then
        let rest := insertSynonymsEach database embedded m.words
        ⟨m.value :: rest.value, rest.words, rest.returned⟩
      else ⟨m.value :: embedded, m.words, false⟩
end

/-- What the variables stand for. -/
abbrev VariableMap := HashMap JString (List CachedObj)

mutual
def CachedObj.insertVariables (variablemap : VariableMap) : CachedObj → CachedObj
  | .list cls name embedded _ => .list cls name (insertVariablesEach variablemap embedded) none
  | .word isVariable text cs => .word isVariable text cs

def insertVariablesEach (variablemap : VariableMap) : List CachedObj → List CachedObj
  | [] => []
  | .word isVariable text cs :: embedded =>
      (variablemap.get text).getD [.word isVariable text cs] ++
        insertVariablesEach variablemap embedded
  | .list cls name inner cs :: embedded =>
      (CachedObj.list cls name inner cs).insertVariables variablemap ::
        insertVariablesEach variablemap embedded
end

/-! ## Calls on a tree and its subtrees -/

/-- The last one are `Word` objects that are made in other trees, from which objects are added. -/
inductive Op where
  | add (o : CachedObj)
  | addAll (o : CachedObj)
  | addEach (os : List CachedObj)
  | insertSynonyms (database : SynonymProvider)
  | insertVariables (variablemap : VariableMap)
  | toggle (tagger : JString → JString)
  | getWords
  | elsewhere (texts : List JString)

/-- `embedded.addAll(os)` -/
def CachedObj.addEach (os : List CachedObj) : CachedObj → CachedObj
  | .list cls name embedded cs => .list cls name (embedded ++ os) cs
  | .word isVariable text cs => .word isVariable text cs

/-- What `add` and the two methods `addAll` add: a list is dissolved by the first of them. -/
def Op.added : Op → List CachedObj
  | .add o => [o]
  | .addAll (.list _ _ embedded _) => embedded
  | .addAll o => [o]
  | .addEach os => os
  | _ => []

/-- The object after a call, and the `Word` objects. -/
def Op.call : Op → CachedObj → WordObjects → CachedObj × WordObjects
  | .insertSynonyms database, o, w =>
      let m := o.insertSynonyms database w
      (m.value, m.words)
  | .insertVariables variablemap, o, w => (o.insertVariables variablemap, w)
  | .toggle tagger, o, w =>
      let m := o.toggle tagger w
      (m.value.1, m.words)
  | .getWords, o, w =>
      let m := o.prepareWords w
      (m.value, m.words)
  | .elsewhere texts, o, w => (o, w ++ texts)
  | op, o, w => (o.addEach op.added, w)

/-- The object at a path. -/
def CachedObj.objectAt : List Nat → CachedObj → Option CachedObj
  | [], o => some o
  | i :: path, .list _ _ embedded _ => embedded[i]?.bind (objectAt path)
  | _ :: _, .word _ _ _ => none

/-- A call on the object at a path. -/
def CachedObj.callAt (op : Op) : List Nat → CachedObj → WordObjects → CachedObj × WordObjects
  | [], o, w => op.call o w
  | i :: path, .list cls name embedded cs, w =>
      match embedded[i]? with
      | some e =>
          let m := callAt op path e w
          (.list cls name (embedded.set i m.1) cs, m.2)
      | none => (.list cls name embedded cs, w)
  | _ :: _, .word isVariable text cs, w => (.word isVariable text cs, w)

/-- A tree with all `Word` objects that were made. -/
structure State where
  tree : CachedObj
  words : WordObjects

def State.step (s : State) (call : List Nat × Op) : State :=
  let m := s.tree.callAt call.2 call.1 s.words
  ⟨m.1, m.2⟩

def State.run (s : State) (calls : List (List Nat × Op)) : State := calls.foldl State.step s

end Freehal.WordCache
