import Freehal.Disk.Database
import Freehal.Lib.Run

/-!
# The disk engine

Adding and deleting in `hal2012-disk.c`. A call meets an environment: the number that is read
from the buffer `key` where a query leaves it unset, and the statements that fail for a reason
outside of the scripts. Texts are valid pointers. The counters for the statistics are left out.
-/

namespace Freehal.Disk

open Lib (runScript)
open Universal (Config isBad isATrivialWord strstr toNumber)

/-- The arguments of `disk_add_fact` and `disk_add_clause` that are read. `truth` is the text that
`printf` writes for it. -/
structure Entry where
  subjects : Str
  objects : Str
  verbs : Str
  adverbs : Str
  questionword : Str
  filename : Str
  line : Str
  truth : Str
  flags : VerbFlags
  onlyLogic : Bool
  hasConditionalQuestionword : Bool

structure Environment where
  key : Int
  first : Option Nat
  second : Option Nat

/-- The database and the static variables of the process. -/
structure State where
  db : Database
  cacheClauses : Int
  cacheFacts : Int
  cacheWordid : Int

/-! ## Keys -/

def lastKey (key : Int) (ids : List Int) : Int :=
  match lastId ids with
  | some id => toNumber (Lib.signed id)
  | none => key

def getLastPk (key : Int) (rel : Int) : StateM State Int := fun s =>
  if rel ≠ 0 then
    let pk :=
      if s.cacheClauses > -1 then s.cacheClauses + 1
      else lastKey key (s.db.clauses.rows.map (·.id))
    (pk, { s with cacheClauses := pk })
  else
    let pk :=
      if s.cacheFacts > -1 then s.cacheFacts + 1 else lastKey key (s.db.facts.rows.map (·.id))
    (pk, { s with cacheFacts := pk })

def getLastWordid (key : Int) : StateM State Int := fun s =>
  let id :=
    if s.cacheWordid > -1 then s.cacheWordid + 1 else lastKey key (s.db.word.rows.map (·.id))
  (id, { s with cacheWordid := id })

/-- `snprintf(_, 9, "%d", i)` writes at most eight characters. -/
def clipped : Int → Int
  | .ofNat n => Nat.ofDigitChars 10 ((Lib.decimal n).take 8) 0
  | .negSucc n => - (Nat.ofDigitChars 10 ((Lib.decimal (n + 1)).take 7) 0 : Int)

/-! ## Scripts -/

/-- A char is signed. -/
def charValue (c : Char) : Int := if c.toNat < 128 then c.toNat else c.toNat - 256

def fileid (filename : Str) : Int :=
  filename.foldl (fun result c => result + charValue c) (-filename.length)

def sqlGetWord (word : Str) : Scalar :=
  if word.head? = some ' ' then .minusOne else .selectId (stored word)

def sqlSetWord (key : Int) (word : Str) : StateM State (List Statement) := do
  if word.head? = some ' ' then return []
  let id ← getLastWordid key
  return [.insertWord (clipped id) (stored word)]

/-- The loop ends behind the last blank. -/
def lastWord (text : Str) : Str := (text.reverse.takeWhile (· ≠ ' ')).reverse

/-- The words that `gen_sql_add_entry` sets. -/
def Entry.setWords (e : Entry) : List Str :=
  [e.subjects, e.objects, e.adverbs, lastWord e.subjects, lastWord e.objects, e.questionword,
    e.verbs]

def Entry.isSynonym (rel : Int) (e : Entry) : Bool :=
  rel = 0 && (e.verbs = ['='] || e.verbs = "is-a".toList) && !strstr e.filename "fa-".toList
    && e.adverbs.length < 3

def Entry.insertSynonym (e : Entry) : Statement :=
  .insertSynonym (sqlGetWord e.subjects) (sqlGetWord (lastWord e.subjects)) (sqlGetWord e.objects)
    (sqlGetWord (lastWord e.objects)) (fileid e.filename) e.line

def Entry.insertEntry (pk rel : Int) (e : Entry) : Statement :=
  .insertEntry (rel ≠ 0) (clipped pk) (sqlGetWord e.verbs) (sqlGetWord e.subjects)
    (sqlGetWord e.objects) (sqlGetWord e.adverbs) (sqlGetWord e.questionword) 50
    (fileid e.filename) e.line (if rel ≠ 0 then rel else -1) (e.truth.take 4) e.onlyLogic

def genSqlAddEntry (key pk rel : Int) (e : Entry) : StateM State (List Statement) := do
  let words ← e.setWords.mapM (sqlSetWord key)
  return words.flatten ++ (if e.isSynonym rel then [e.insertSynonym] else [])
    ++ [e.insertEntry pk rel]

def genSqlAddVerbFlags (pk rel : Int) (e : Entry) : List Statement :=
  [.insertFlags (rel ≠ 0) pk e.flags]

/-- What `strtok` finds between the characters of " ;.)(,_". -/
def strtok (text : Str) : List Str :=
  (text.splitOnP (· ∈ " ;.)(,_".toList)).filter (· ≠ [])

/-- One of the loops of `detect_words` behind the words found so far. -/
def detectTokens (cfg : Config) : List Str → List Str → List Str
  | words, [] => words
  | words, token :: tokens =>
      if token = ['0'] then words
      else if isATrivialWord cfg token then detectTokens cfg words tokens
      else if words.length + 1 ≥ 500 then words ++ [token]
      else detectTokens cfg (words ++ [token]) tokens

/-- The argument `r_extra` is empty in every call. -/
def detectWords (cfg : Config) (verbs subjects objects adverbs : Str) : List Str :=
  let words := [['0']] ++ (if subjects ≠ ['0'] then [verbs, subjects] else [])
    ++ (if objects ≠ ['0'] then [objects] else []) ++ (if adverbs ≠ ['0'] then [adverbs] else [])
  [verbs, subjects, objects, adverbs].foldl (fun words text => detectTokens cfg words (strtok text))
    words

def conditionalMarker : Str := "$$has_conditional_questionword$$".toList

def isIndexed (word : Str) : Bool :=
  !(word.head? = some '0' && decide (word.length < 3)) && decide (word.length > 0)

/-- The words that `gen_sql_add_word_fact_relations` sets and relates to the fact. -/
def Entry.indexWords (cfg : Config) (e : Entry) : List Str :=
  ((detectWords cfg e.verbs e.subjects e.objects e.adverbs
    ++ if e.hasConditionalQuestionword then [conditionalMarker] else []).reverse).filter isIndexed

def genSqlAddWordFactRelations (cfg : Config) (key pk rel : Int) (e : Entry) :
    StateM State (List Statement) := do
  let words ← (e.indexWords cfg).mapM fun word => do
    let statements ← sqlSetWord key word
    return statements ++ [.insertIndex (sqlGetWord word) pk (if rel ≠ 0 then 2 else 1)]
  return words.flatten

/-! ## Executing scripts -/

/-- An error other than a clash is printed and not returned. -/
def sqlExecute (interrupt : Option Nat) (script : List Statement) : StateM State (Option SqlError) :=
  fun s =>
    match runScript Statement.exec .other interrupt script s.db with
    | (db, some .notUnique) =>
        (some .notUnique, { s with db := db, cacheClauses := -1, cacheFacts := -1 })
    | (db, _) => (none, { s with db := db })

/-- The entries that are not added at all. -/
def Entry.isRejected (e : Entry) : Bool :=
  (isBad e.subjects && isBad e.objects && isBad e.verbs
      && !(e.flags.want || e.flags.must || e.flags.can || e.flags.may || e.flags.should))
    || e.questionword.head? = some ')'

/-- The two scripts of an entry: its key and the error of the second script. -/
def addEntry (cfg : Config) (env : Environment) (rel : Int) (e : Entry) :
    StateM State (Int × Option SqlError) := do
  let pk := (← getLastPk env.key rel) + 1
  let script ← genSqlAddEntry env.key pk rel e
  let _ ← sqlExecute env.first (script ++ genSqlAddVerbFlags pk rel e)
  let script ← genSqlAddWordFactRelations cfg env.key pk rel e
  let error ← sqlExecute env.second script
  return (pk, error)

/-- A clause never is only logic and has no mark for a conditional question word. -/
def diskAddClause (cfg : Config) (env : Environment) (rel : Int) (e : Entry) :
    StateM State (Option Int) := do
  if e.isRejected then return none
  let (pk, _) ← addEntry cfg env rel
    { e with onlyLogic := false, hasConditionalQuestionword := false }
  return some pk

def diskAddFact (cfg : Config) (env : Environment) (e : Entry) : StateM State (Option Int) := do
  if e.isRejected then return none
  let (pk, error) ← addEntry cfg env 0 e
  if error.isSome then return none
  return some pk

def diskDelRecord (key : Str) : StateM State Unit := do
  if key = [] then return
  let _ ← sqlExecute none [.deleteRecord key]

def diskDeleteEverythingFrom (filename : Str) : StateM State Unit := do
  let id := fileid filename
  let _ ← sqlExecute none [.deleteFileid true id, .deleteFileid false id, .deleteSynonyms id]

/-- What `disk_begin` does to the static variables. -/
def diskBegin : StateM State Unit :=
  modify fun s => { s with cacheClauses := -1, cacheFacts := -1 }

/-- A new process on the same database file. -/
def restart : StateM State Unit :=
  modify fun s => { s with cacheClauses := -1, cacheFacts := -1, cacheWordid := -1 }

/-! ## Histories -/

inductive Operation where
  | addFact (env : Environment) (e : Entry)
  | addClause (env : Environment) (rel : Int) (e : Entry)
  | delRecord (key : Str)
  | deleteEverythingFrom (filename : Str)
  | begin_
  | restart

def step (cfg : Config) (s : State) : Operation → State
  | .addFact env e => (diskAddFact cfg env e s).2
  | .addClause env rel e => (diskAddClause cfg env rel e s).2
  | .delRecord key => (diskDelRecord key s).2
  | .deleteEverythingFrom filename => (diskDeleteEverythingFrom filename s).2
  | .begin_ => (diskBegin s).2
  | .restart => (restart s).2

/-- A new process on a new database file. -/
def State.fresh : State := ⟨Database.created, -1, -1, -1⟩

end Freehal.Disk
