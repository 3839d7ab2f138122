import Freehal.Lib.Text
import Freehal.Lib.Closure
import Freehal.Lib.Run

/-!
# The synonym index

`SynonymIndex.java`. A hash set is a list without repetitions.
-/

namespace Freehal.Index

/-- `map`, the sets in the order in which they were added. -/
abbrev SynonymIndex := List (List Str)

/-- `Set.add` -/
def setAdd (set : List Str) (word : Str) : List Str :=
  if set.contains word then set else set ++ [word]

/-- `Set.addAll` -/
def setAddAll (set words : List Str) : List Str := words.foldl setAdd set

/-- The loop over all sets: the index of the last one that contains the word. -/
def indexOf (word : Str) : SynonymIndex → Nat → Option Nat → Option Nat
  | [], _, found => found
  | set :: map, i, found => indexOf word map (i + 1) (if set.contains word then some i else found)

/-- `map.remove(index2)` gets an `Integer` and so removes what is equal to it. No set is. -/
def addSynonyms (map : SynonymIndex) (call : Str × Str) : SynonymIndex :=
  match indexOf call.1 map 0 none, indexOf call.2 map 0 none with
  | none, none => map ++ [setAdd [call.1] call.2]
  | some index1, none => map.modify index1 (setAdd · call.2)
  | none, some index2 => map.modify index2 (setAdd · call.1)
  | some index1, some index2 => map.modify index1 (setAddAll · (map.getD index2 []))

def getSynonyms (map : SynonymIndex) (word : Str) : List Str :=
  (map.find? (·.contains word)).getD []

end Freehal.Index
