import Freehal.Disk.QueryCache
import Freehal.Lib.Walk
import Freehal.Wiki.Sentences

/-!
# Searching a page

`search_facts_wiki_page` of `hal2012-wiki.cpp`. `download_from_url` is a function from addresses to
texts, which are empty where there is no page.
-/

namespace Freehal.Wiki

open Universal (Word)
open Disk (divideWords)

/-! ## A line -/

structure Counters where
  inHeader : Int
  inTable : Int
  inScript : Int
  inUl : Int

/-- The members of the fact that are not the same for all pages. -/
structure Fact where
  verbs : List Word
  subjects : List Word
  objects : List Word
deriving DecidableEq

/-- What is done with a line: nothing more, the loop is left, or a fact is made of an object. -/
inductive Rest where
  | next
  | stop
  | fact (fact : Fact) (object : Str)

/-- The page that is searched first, and what is done unless there are facts on it. -/
structure LineResult where
  counters : Counters
  link : Option Str
  rest : Rest

def countUl (line : Str) (c : Counters) : Counters :=
  let c := if contains line "zu diesem Stichwort gibt es nicht".toList then
    { inHeader := 0, inTable := 0, inScript := 0, inUl := 1 } else c
  let c := if contains line "<ul".toList then { c with inUl := c.inUl + 1 } else c
  if contains line "</ul>".toList then { c with inUl := c.inUl - 1 } else c

def countTables (line : Str) (c : Counters) : Counters :=
  let c := if contains line "<table".toList then { c with inTable := c.inTable + 1 } else c
  let c := if contains line "</table".toList then { c with inTable := c.inTable - 1 } else c
  let c := if contains line "<script".toList then { c with inScript := c.inScript + 1 } else c
  if contains line "</script".toList then { c with inScript := c.inScript - 1 } else c

/-- The lines that are no sentences of the page. -/
def ignoredParts : List String :=
  ["bezeichnet:", "aus Wikipedia", "benannt:", "Koordinaten", "gesichtete Version", "latitude",
    "</div", "<li", "Vorlage:Infobox", "Siehe auch:", "In diesem Artikel", "iehe:",
    "der Seite zur internen Wikipedia-Qualit"]

def isIgnored (line : Str) : Bool :=
  contains line "action=edit".toList && !contains line "redlink".toList ||
    contains line "bezeichnet".toList && !contains line ". ".toList ||
      ignoredParts.any fun part => contains line part.toList

/-- The colon stands among the last characters. In a shorter object the difference of the sizes is
larger than every position. -/
def endsWithColon (object : Str) : Bool :=
  (find object [':'] 0).any fun pos => 5 ≤ object.length && pos > object.length - 5

/-- The sentence that is left of a line. -/
def sentenceOf (line : Str) : Option Str :=
  let line := removeBetween line '(' ')'
  let line := removeBetween line '[' ']'
  let line := removeBetween line '<' '>'
  let line := removeBetween line '&' ';'
  if line.length = 0 then none
  else
    let line := if (ascii line).length = 0 then [] else line
    let line := trimIf " \t\r\n".toList line
    if line.length < 30 then none else some line

def sentenceRest (lang entityUpper line : Str) : Rest :=
  if isIgnored line then .next
  else
    match sentenceOf line with
    | none => .next
    | some line =>
        let object := transformSentence lang line
        if endsWithColon object then .stop
        else .fact
          { verbs := divideWords (defineGeneralVerb lang line)
            subjects := divideWords entityUpper
            objects := divideWords object } object

def readLine (lang entityUpper line : Str) (c : Counters) : LineResult :=
  if line.length ≤ 1 then ⟨c, none, .next⟩
  else if contains line "class=\"noprint\"".toList || contains line "Wechseln zu".toList then
    ⟨{ c with inHeader := 0 }, none, .next⟩
  else
    let c := countUl line c
    if c.inHeader ≠ 0 then ⟨c, none, .next⟩
    else
      let c := countTables line c
      if 0 < c.inScript ∨ 0 < c.inTable then ⟨c, none, .next⟩
      else if c.inUl ≠ 0 ∧ contains line "<a href=\"/wiki/".toList = true then
        match find line ['"'] 0 with
        | none => ⟨c, none, .next⟩
        | some start =>
            match find line ['"'] (start + 1) with
            | none => ⟨c, none, .next⟩
            | some stop =>
                ⟨c, some ((line.drop (start + 1)).take (stop - (start + 1))),
                  sentenceRest lang entityUpper line⟩
      else ⟨c, none, sentenceRest lang entityUpper line⟩

/-! ## The object in the protocol -/

/-- Some capital letter has no blank between it and the comma. The counter is a `short`. -/
def foundBigLetter (object : Str) (stop : Nat) : Bool :=
  (List.range object.length).countP (fun i => (object[i]?.any Char.isUpper) &&
    (object[i]? = some ' ' || ((find object [' '] i).all fun pos => pos > stop))) % 65536 ≠ 0

/-- The loop over the commas, with fuel, from a position on. -/
def shortenObject : Nat → Nat → Str → Option Str
  | 0, _, _ => none
  | fuel + 1, start, object =>
      match find object [','] start with
      | none => some object
      | some stop =>
          if foundBigLetter object stop then some (object.take stop)
          else shortenObject fuel (stop + 1) (object.set stop ' ')

/-! ## The page -/

/-- A null pointer, or an array with at most one fact. -/
inductive Facts where
  | null
  | array (first : Option Fact)
deriving DecidableEq

/-- The loop leaves the page behind an object that does not begin with a blank. -/
def isLast (object : Str) : Bool :=
  object.length > 0 && object.head? ≠ some ' ' && object.head? ≠ some '\t'

section

variable (lang entityUpper : Str) (uninitialized : Str → Nat)

/-- What is done with a line after its link. `next` is the loop over the lines behind it. -/
def finishLine (next : Option Fact → Option Facts) (first : Option Fact) : Rest → Option Facts
  | .next => next first
  | .stop => some (.array first)
  | .fact fact object => do
      let _ ← shortenObject (object.length + 1) (uninitialized object) object
      if isLast object then some (.array (some fact)) else next (some fact)

/-- The call for the page that a list leads to, if there is one. -/
def searchLink (search : Str → Option Facts) (rest : Option Facts) : Option Str → Option Facts
  | none => rest
  | some page => do
      match ← search page with
      | .null => rest
      | .array first => some (.array first)

/-- The loop over the lines. The search for the first comma of an object begins where the variable
happens to stand. -/
def searchLines (search : Str → Option Facts) : Counters → Option Fact → List Str → Option Facts
  | _, first, [] => some (.array first)
  | c, first, line :: lines =>
      let result := readLine lang entityUpper line c
      searchLink search (finishLine uninitialized
        (fun first => searchLines search result.counters first lines) first result.rest) result.link

def urlOf (page : Str) : Str := replaceSpaces (lang ++ ".wikipedia.org".toList ++ page)

def splitLines (file : Str) : List Str := file.splitOnP fun c => c = '\n' || c = '\r'

/-- With fuel for the calls inside of each other. -/
def searchFactsWikiPage (downloadFromUrl : Str → Str) : Nat → Str → Option Facts
  | 0, _ => none
  | fuel + 1, page =>
      if entityUpper.length < 3 then some .null
      else
        let file := downloadFromUrl (urlOf lang page)
        if file.length = 0 then some .null
        else searchLines lang entityUpper uninitialized (searchFactsWikiPage downloadFromUrl fuel)
          ⟨1, 0, 0, 0⟩ none (splitLines file)

end

end Freehal.Wiki
