import Freehal.Disk.Search

/-!
# The query cache

`disk_search_facts_for_words_in_net` with `find_query_cache_entry` and `callback_get_facts`. How
SQLite prints a number of type double is a parameter, like its operator GLOB.
-/

namespace Freehal.Disk

open Universal (Config Group Word isBad toNumber)

/-! ## Facts -/

/-- A fact with the columns that only the tables have. -/
structure Fact extends Universal.Fact where
  line : Str
  onlyLogic : Bool
deriving DecidableEq

/-- `divide_words`: the pieces between blanks, unless the text begins with a zero or a blank. -/
def divideWords (str : Str) : List Word :=
  if str.head? = some '0' ∨ str.head? = some ' ' then []
  else ((str.splitOn ' ').filter (· ≠ [])).map Word.mk

/-- The columns of a row of the result. -/
abbrev Argv := List (Option Str)

def Argv.column (argv : Argv) (k : Nat) : Option Str := argv.getD k none

def Argv.text (argv : Argv) (k : Nat) : Str := (argv.column k).getD []

def truthOf (text : Str) : Rat :=
  if text.head? = some '1' then 1
  else if 2 ≤ text.length ∧ text[2]? ≠ some '0' then 1 / 2
  else 0

/-- There is a verb, and a subject, an object, an adverb or a question word. -/
def Argv.isUsable (argv : Argv) : Bool :=
  5 < argv.length && argv.text 1 ≠ [] &&
    (argv.text 2 ≠ [] || argv.text 3 ≠ [] || argv.text 4 ≠ [] || argv.text 5 ≠ [])

def Argv.fact (argv : Argv) : Fact where
  pk := toNumber ((argv.column 0).getD ['0'])
  verbs := divideWords (argv.text 1)
  subjects := divideWords (argv.text 2)
  objects := divideWords (argv.text 3)
  adverbs := divideWords (argv.text 4)
  extra := divideWords []
  questionword := argv.text 5
  filename := argv.text 6
  line := argv.text 7
  truth := truthOf (argv.text 8)
  onlyLogic := (argv.text 9).head? = some '1'

/-! ## The rows of the script -/

variable (glob : Str → Str → Bool) (double : Str → Str)

/-- `(SELECT word FROM word WHERE id = ...)` -/
def Database.wordText (db : Database) (id : Option Int) : Option Str :=
  id.bind fun id => (db.word.rows.find? (·.id = id)).map (·.word)

def digit (b : Bool) : Str := if b then ['1'] else ['0']

def VerbFlags.text (f : VerbFlags) : Str :=
  digit f.want ++ digit f.must ++ digit f.can ++ digit f.may ++ digit f.should

/-- A text with a NULL behind it is a NULL. -/
def Database.verbText (db : Database) (row : FactRow) : Option Str := do
  let verb ← db.wordText row.verb
  let flag ← db.relFactFlag.rows.find? (·.fact = row.id)
  return verb ++ flag.flags.text

def Database.argv (db : Database) (row : FactRow) : Argv :=
  [some (Lib.signed row.id), db.verbText row, db.wordText row.subjects, db.wordText row.objects,
    db.wordText row.adverbs, db.wordText row.questionword, some (Lib.signed row.fileid),
    some (Lib.signed row.line), some (double row.truth), some (digit row.onlyLogic)]

/-- The result of the script for these words. -/
def resultRows (cfg : Config) (db : Database) (words : List Group) : List Argv :=
  (selectedFacts glob cfg db words).map (db.argv double)

/-! ## Hashes -/

structure Hashes where
  n1 : Int
  n2 : Int
  n3 : Int
deriving DecidableEq

def weighted : Nat → Str → Int
  | _, [] => 0
  | k, c :: name =>
      charValue c * (if k % 3 = 0 then 3 else if k % 3 = 1 then 7 else 11) + weighted (k + 1) name

def hashes : List Word → Hashes
  | [] => ⟨0, 0, 0⟩
  | w :: words =>
      let h := hashes words
      ⟨(w.name.head?.map charValue).getD 0 + h.n1, w.name.length + h.n2, weighted 0 w.name + h.n3⟩

/-- No hashes are computed where the first group is no pointer. -/
def requestHashes (words : List Group) : Hashes :=
  match words with
  | some _ :: _ => hashes (unique words)
  | _ => ⟨0, 0, 0⟩

/-! ## The entries -/

def queryCacheSize : Nat := 9

structure QueryCacheEntry where
  hashes : Hashes
  rawfacts : List Argv

abbrev QueryCache := List QueryCacheEntry

/-- The second sum is compared twice. -/
def QueryCacheEntry.isFor (h : Hashes) (entry : QueryCacheEntry) : Bool :=
  entry.hashes.n1 = h.n1 && entry.hashes.n2 = h.n2 && entry.hashes.n2 = h.n2

/-- The loop over the entries from the index `i` on. -/
def rightIndex (h : Hashes) : QueryCache → Nat → Option Nat → Option Nat
  | [], _, iRight => iRight
  | entry :: cache, i, iRight => rightIndex h cache (i + 1) (if entry.isFor h then some i else iRight)

/-- A full cache is cleared, whether the entry is in it or not. -/
def findQueryCacheEntry (cache : QueryCache) (h : Hashes) (ifNeededCreateEntry : Bool) :
    Option Nat × QueryCache :=
  let iRight := if cache.length ≥ queryCacheSize then none else rightIndex h cache 0 none
  let cache := if cache.length ≥ queryCacheSize then [] else cache
  if ifNeededCreateEntry && iRight = none then (some cache.length, cache ++ [⟨h, []⟩])
  else (iRight, cache)

/-! ## Searching -/

/-- The facts found and the raw facts of the entry. The query is aborted when there is no room. -/
def callbackGetFacts (limit : Nat) (makeRawfacts : Bool) (argv : Argv)
    (st : List Fact × List Argv) : Option (List Fact × List Argv) :=
  if st.1.length ≥ limit then none
  else if !argv.isUsable then some st
  else
    some (st.1 ++ [argv.fact],
      if makeRawfacts && decide (st.2.length < limit) then st.2 ++ [argv] else st.2)

def sqlExecuteRows (limit : Nat) (makeRawfacts : Bool) :
    List Argv → List Fact × List Argv → List Fact × List Argv
  | [], st => st
  | argv :: rows, st =>
      match callbackGetFacts limit makeRawfacts argv st with
      | none => st
      | some st => sqlExecuteRows limit makeRawfacts rows st

/-- The loop over the raw facts of an entry. -/
def replayRows (limit : Nat) : List Argv → List Fact → List Fact
  | [], facts => facts
  | argv :: rows, facts =>
      replayRows limit rows ((callbackGetFacts limit false argv (facts, [])).elim facts Prod.fst)

/-- The arguments, with the facts that are there already. -/
structure Call where
  words : List Group
  limit : Nat
  facts : List Fact

structure Found where
  facts : List Fact
  tooMuch : Bool
  cache : QueryCache

def diskSearchFactsForWordsInNet (cfg : Config) (db : Database) (cache : QueryCache)
    (call : Call) : Found :=
  let h := requestHashes call.words
  let (iRight, cache) := findQueryCacheEntry cache h false
  let (facts, cache) :=
    match iRight.bind (cache[·]?) with
    | some entry => (replayRows call.limit entry.rawfacts call.facts, cache)
    | none =>
        let (iRight, cache) := findQueryCacheEntry cache h true
        let makeRawfacts := decide (h ≠ ⟨0, 0, 0⟩)
        let (facts, rawfacts) := sqlExecuteRows call.limit makeRawfacts
          (resultRows glob double cfg db call.words) (call.facts, [])
        (facts, cache.modify (iRight.getD 0) fun entry => { entry with rawfacts := rawfacts })
  ⟨facts, decide ((facts.length : Int) > (call.limit : Int) - 10), cache⟩

/-- What the SQL of the call appends. -/
def withoutCache (cfg : Config) (db : Database) (call : Call) : List Fact :=
  (sqlExecuteRows call.limit false (resultRows glob double cfg db call.words) (call.facts, [])).1

/-- The cache after some calls since it was cleared. -/
def cacheAfter (cfg : Config) (db : Database) (calls : List Call) : QueryCache :=
  calls.foldl (fun cache call => (diskSearchFactsForWordsInNet glob double cfg db cache call).cache) []

end Freehal.Disk
