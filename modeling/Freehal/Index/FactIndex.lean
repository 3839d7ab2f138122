import Freehal.Lib.HashMap
import Freehal.Index.KeyValueDatabase

/-!
# The fact index

`FactIndex.java` over any key-value database, for any kind of facts. `none` stands for a
`NullPointerException`. The counter of facts stays in the range of `int`.
-/

namespace Freehal.Index
open Lib

/-- What the index asks of a fact; `equals` compares the hash codes. -/
structure Facts (α : Type) where
  getWords : α → List Str
  hashCode : α → Int

/-! ## Keys -/

/-- `toLowerCase`, as far as ASCII characters can result. -/
def toLowerCase (c : Char) : Char :=
  if c = Char.ofNat 0x130 then 'i' else if c = Char.ofNat 0x212A then 'k' else c.toLower

def isAsciiAlphanumeric (c : Char) : Bool :=
  ('a' ≤ c && c ≤ 'z') || ('A' ≤ c && c ≤ 'Z') || ('0' ≤ c && c ≤ '9')

/-- `globalKeyLength` -/
def keylength : Nat := 4

/-- `new DirectoryUtils.Key(word).getKey()` -/
def getKey (word : Str) : Str :=
  let onlyChars := (word.map toLowerCase).filter isAsciiAlphanumeric
  onlyChars.take keylength ++ List.replicate (keylength - onlyChars.length) '_'

/-! ## The updater -/

variable {σ α : Type}

/-- A hash set holds no two facts that are equal by `equals`. -/
def hashSetAdd (F : Facts α) (set : List α) (x : α) : List α :=
  if set.any fun y => F.hashCode y = F.hashCode x then set else set ++ [x]

structure FactCacheUpdater (α : Type) where
  cache : Option (HashMap Str (List α)) := none
  databaseFile : Str := []
  count : Nat := 0

/-- The updater and the database it writes to. -/
abbrev Updating (σ α : Type) := FactCacheUpdater α × σ

def FactCacheUpdater.startUpdateCache (u : FactCacheUpdater α) (databaseFile : Str) :
    FactCacheUpdater α :=
  { u with databaseFile := databaseFile, cache := some [] }

def dbname (databaseFile : Str) (suffix : Nat) : Str := databaseFile ++ '-' :: decimal suffix

def suffix (memoryLimit count : Nat) : Nat :=
  count / memoryLimit + if count % memoryLimit = 0 then 0 else 1

def writeCache (kv : KeyValueDatabase σ α) (ord : HashOrder) (s : σ) (cache : HashMap Str (List α))
    (name : Str) : σ :=
  (ord.enum cache).foldl (fun s e => kv.set s e.1 e.2 name) (kv.removeEverything s name)

def stopUpdateCache (kv : KeyValueDatabase σ α) (ord : HashOrder) (memoryLimit : Nat) :
    Updating σ α → Updating σ α
  | (u, s) =>
      match u.cache with
      | none => (u, s)
      | some cache =>
          ({ u with cache := none },
            writeCache kv ord s cache (dbname u.databaseFile (suffix memoryLimit u.count)))

def addWord (F : Facts α) (xfact : α) (cache : HashMap Str (List α)) (word : Str) :
    HashMap Str (List α) :=
  cache.put (getKey word) (hashSetAdd F ((cache.get (getKey word)).getD []) xfact)

def addToCache (kv : KeyValueDatabase σ α) (F : Facts α) (ord : HashOrder) (memoryLimit : Nat)
    (xfact : α) : Updating σ α → Updating σ α
  | (u, s) =>
      match u.cache with
      | none => (u, s)
      | some cache =>
          let cache := (F.getWords xfact).foldl (addWord F xfact) cache
          let u := { u with cache := some cache, count := u.count + 1 }
          if u.count % memoryLimit = 0 ∧ memoryLimit ≤ u.count then
            let (u, s) := stopUpdateCache kv ord memoryLimit (u, s)
            (u.startUpdateCache u.databaseFile, s)
          else (u, s)

/-! ## The index -/

/-- `FactIndex`: the updater in use and the state of `factsCache`. -/
structure FactIndex (σ α : Type) where
  cacheUpdater : Option (FactCacheUpdater α) := none
  factsCache : σ

namespace FactIndex

variable (kv : KeyValueDatabase σ α) (F : Facts α) (ord : HashOrder) (memoryLimit : Nat)

def startUpdateCache (ix : FactIndex σ α) (databaseFile : Str) : FactIndex σ α :=
  { ix with cacheUpdater := some (FactCacheUpdater.startUpdateCache {} databaseFile) }

def addToCache (ix : FactIndex σ α) (xfact : α) : Option (FactIndex σ α) :=
  ix.cacheUpdater.map fun u =>
    let (u, s) := Index.addToCache kv F ord memoryLimit xfact (u, ix.factsCache)
    ⟨some u, s⟩

def stopUpdateCache (ix : FactIndex σ α) : Option (FactIndex σ α) :=
  ix.cacheUpdater.map fun u =>
    ⟨none, (Index.stopUpdateCache kv ord memoryLimit (u, ix.factsCache)).2⟩

def findFactsByKey (ix : FactIndex σ α) (key : Str) : List α :=
  (kv.get ix.factsCache key).foldl (hashSetAdd F) []

def findFacts (ix : FactIndex σ α) (words : List Str) : List α :=
  words.foldl (fun found w => (findFactsByKey kv F ix (getKey w)).foldl (hashSetAdd F) found) []

/-- The calls with which one file is indexed. -/
def indexFile (ix : FactIndex σ α) (run : Str × List α) : Option (FactIndex σ α) := do
  let ix ← run.2.foldlM (addToCache kv F ord memoryLimit) (ix.startUpdateCache run.1)
  stopUpdateCache kv ord memoryLimit ix

/-- The calls for several files, one after the other. -/
def indexFiles (ix : FactIndex σ α) (runs : List (Str × List α)) : Option (FactIndex σ α) :=
  runs.foldlM (indexFile kv F ord memoryLimit) ix

end FactIndex

/-- Whether a set contains a fact, by `equals`. -/
def Facts.contains (F : Facts α) (found : List α) (x : α) : Prop :=
  ∃ y ∈ found, F.hashCode y = F.hashCode x

end Freehal.Index
