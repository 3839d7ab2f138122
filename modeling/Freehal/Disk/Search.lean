import Freehal.Disk.Engine
import Freehal.Universal.Match

/-!
# Searching facts for words

The script of `gen_sql_get_facts_for_words` and the rows of `facts` that it selects. The operator
GLOB of SQLite is a parameter.
-/

namespace Freehal.Disk

open Universal (Config Group Word isBad isATrivialWord isImportantWord canBeASynonym)

/-! ## The words -/

/-- `is_in` looks at the first `n` words found so far only, where `n` counts the groups. -/
def uniqueGroup (n : Nat) : List (Option Word) → List Word → List Word
  | [], found => found
  | none :: words, found => uniqueGroup n words found
  | some w :: words, found =>
      if found.length + 1 ≥ 1024 ∨ w ∈ found.take n then uniqueGroup n words found
      else uniqueGroup n words (found ++ [w])

def uniqueFrom : Nat → List Group → List Word → List Word
  | _, [], found => found
  | n, none :: groups, found => uniqueFrom (n + 1) groups found
  | n, some words :: groups, found => uniqueFrom (n + 1) groups (uniqueGroup n words found)

def unique (words : List Group) : List Word := uniqueFrom 0 words []

/-- The words that the search leaves out. -/
def isSkipped (cfg : Config) (word : Str) : Bool :=
  (!isImportantWord cfg word && isATrivialWord cfg word) || !canBeASynonym cfg word || isBad word

/-! ## The script -/

/-- How the column `word` of the index is compared. `sql_get_word_glob` writes nothing for a word
that begins with a blank, which is a syntax error. -/
inductive Selector where
  | eq (word : Scalar)
  | inGlob (pattern : Str)
  | broken

/-- A star in front is dropped. -/
def pattern (word : Str) : Str :=
  match word with
  | '*' :: word => word
  | word => word

def selector (word : Str) : Selector :=
  let word := pattern word
  if '*' ∈ word then if word.head? = some ' ' then .broken else .inGlob (stored word)
  else .eq (sqlGetWord word)

/-- The selectors of the script, which is empty where the first group is no pointer. -/
def genSqlGetFactsForWords (cfg : Config) (words : List Group) : List Selector :=
  match words with
  | some _ :: _ => ((unique words).filter fun w => !isSkipped cfg w.name).map (selector ·.name)
  | _ => []

/-! ## Selecting -/

/-- Inside of a query on the index, its columns are visible too. -/
def WordRow.isWithin (outer : IndexRow) (row : WordRow) (text : Str) : Bool :=
  if isName ["fact"] text then row.word = Lib.signed outer.fact
  else if isName ["table"] text then row.word = Lib.signed outer.table
  else row.is text

variable (glob : Str → Str → Bool)

/-- A comparison with NULL does not hold. -/
def Database.selectIndices (db : Database) : Selector → Except SqlError (List Int)
  | .eq (.selectId word) => do
      let word ← literal word
      return (db.relWordFact.rows.filter fun row => row.word.isSome
        && row.word = (db.word.rows.find? (·.isWithin row word)).map (·.id)).map (·.fact)
  | .eq .minusOne => .ok ((db.relWordFact.rows.filter (·.word = some (-1))).map (·.fact))
  | .inGlob pattern => do
      let pattern ← literal pattern
      return (db.relWordFact.rows.filter fun row =>
        db.word.rows.any fun w => row.word = some w.id && glob pattern w.word).map (·.fact)
  | .broken => .error .other

/-- The rows that come through the temporary tables. No row comes where the script fails. -/
def selectedFacts (cfg : Config) (db : Database) (words : List Group) : List FactRow :=
  match (genSqlGetFactsForWords cfg words).mapM (db.selectIndices glob) with
  | .ok indices => db.facts.rows.filter fun row => row.id ∈ indices.flatten
  | .error _ => []

end Freehal.Disk
