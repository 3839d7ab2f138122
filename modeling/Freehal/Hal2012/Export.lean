import Freehal.Grammar2012.DiskDb

/-!
# Records as XML

`record_to_xml`, and `halxml_readfacts` and `add_xml_fact`, which give a fact to the storage.
Printing a tree and `halxml_ordertags` are the functions of `grammar2012` once more, and so is
trimming a text.
-/

namespace Freehal.Hal2012

open Grammar2012 (XmlObj ReadError halxmlOrdertags splitLines trim)
open Lib (decimal signed)

/-! ## Records -/

/-- What is exported of a `RECORD` without its clauses. -/
structure Record where
  subjects : Str
  objects : Str
  verb : Str
  adverbs : Str
  extra : Str
  questionword : Str
  truth : Rat
  verbFlagWant : Int
  verbFlagMust : Int
  verbFlagCan : Int
  verbFlagMay : Int
  verbFlagShould : Int
deriving DecidableEq

def maxClauses : Nat := 10

/-- The clauses of a clause are not read. -/
structure FactRecord extends Record where
  clauses : List Record
  bound : clauses.length ≤ maxClauses

/-! ## Numbers as texts -/

/-- A half is rounded to an even number. -/
def divHalfEven (m n : Nat) : Nat :=
  if 2 * (m % n) < n then m / n
  else if n < 2 * (m % n) then m / n + 1
  else m / n + m / n % 2

/-- `%f` -/
def formatFloat (x : Rat) : Str :=
  let n := divHalfEven (x.num.natAbs * 1000000) x.den
  let fraction := decimal (n % 1000000)
  (if x.num < 0 then ['-'] else []) ++ decimal (n / 1000000) ++
    '.' :: (List.replicate (6 - fraction.length) '0' ++ fraction)

/-- `snprintf` with a size of nine. -/
def snprintf9 (text : Str) : Str := text.take 8

def Record.truthStr (r : Record) : Str := snprintf9 (formatFloat r.truth)

def Record.flagsStr (r : Record) : Str :=
  snprintf9 (signed r.verbFlagWant ++ signed r.verbFlagMust ++ signed r.verbFlagCan ++
    signed r.verbFlagMay ++ signed r.verbFlagShould)

/-- `%f` of `sscanf`, for numbers without an exponent. -/
def scanFloat (text : Str) : Rat :=
  let (negative, text) := match text with
    | '-' :: text => (true, text)
    | _ => (false, text)
  let whole := text.takeWhile Char.isDigit
  let fraction := match text.dropWhile Char.isDigit with
    | '.' :: text => text.takeWhile Char.isDigit
    | _ => []
  let value : Int := Nat.ofDigitChars 10 (whole ++ fraction) 0
  mkRat (if negative then -value else value) (Nat.pow 10 fraction.length)

/-- `%d` of `sscanf`, with the rest of the text. -/
def scanInt (text : Str) : Option (Int × Str) :=
  let text := text.dropWhile Grammar2012.isTrimmed
  let (negative, text) := match text with
    | '-' :: text => (true, text)
    | '+' :: text => (false, text)
    | _ => (false, text)
  let digits := text.takeWhile Char.isDigit
  if digits = [] then none
  else
    let value : Int := Nat.ofDigitChars 10 digits 0
    some (if negative then -value else value, text.dropWhile Char.isDigit)

/-- Several conversions, up to the first one that fails. -/
def scanInts : Nat → Str → List Int
  | 0, _ => []
  | n + 1, text =>
      match scanInt text with
      | some (value, rest) => value :: scanInts n rest
      | none => []

/-! ## Export -/

def textTree (name text : Str) : XmlObj := .list name [.text (trim text)]

def Record.content (r : Record) : List XmlObj :=
  [textTree "subject".toList r.subjects, textTree "object".toList r.objects,
    textTree "verb".toList r.verb, textTree "adverbs".toList r.adverbs,
    textTree "extra".toList r.extra, textTree "questionword".toList r.questionword,
    textTree "truth".toList r.truthStr, textTree "flags".toList r.flagsStr]

def Record.hasFlag (r : Record) : Bool :=
  r.verbFlagWant ≠ 0 || r.verbFlagMust ≠ 0 || r.verbFlagCan ≠ 0 || r.verbFlagMay ≠ 0 ||
    r.verbFlagShould ≠ 0

/-- The clause where the loop breaks. -/
def Record.isRejected (r : Record) : Bool :=
  (r.subjects = [] && r.objects = [] && r.verb = [] && !r.hasFlag) ||
    r.questionword.head? = some ')'

/-- The loop goes on while `n + 1 < MAX_CLAUSES`. -/
def FactRecord.exported (r : FactRecord) : List Record :=
  (r.clauses.take (maxClauses - 1)).takeWhile fun clause => !clause.isRejected

def recordToFact (r : FactRecord) : XmlObj :=
  .list "fact".toList
    (r.content ++ r.exported.map fun clause => .list "clause".toList clause.content)

def recordToXml (r : FactRecord) : Str := (recordToFact r).printXml

/-! ## Reading -/

/-- The loop of `halxml_readtree`, from the line with the index `i` on. -/
def readtreeLoop :
    Nat → Str → List Str → List XmlObj → Except ReadError (List XmlObj × List Str)
  | 0, _, _, _ => .error .outOfFuel
  | _ + 1, _, [], content => .ok (content, [])
  | fuel + 1, tagName, line :: lines, content =>
      if line = ['>'] then
        match lines with
        | [] => .error .outOfRange
        | name :: rest =>
            if name = tagName then .ok (content, name :: rest)
            else readtreeLoop fuel tagName rest content
      else if line = ['<'] then
        match lines with
        | [] => .error .outOfRange
        | name :: rest => do
            let (embedded, rest) ← readtreeLoop fuel name rest []
            readtreeLoop fuel tagName rest.tail (content ++ [.list name embedded])
      else if line.length > 0 then
        readtreeLoop fuel tagName lines (content ++ [.text (trim line)])
      else readtreeLoop fuel tagName lines content

/-- The loop of `halxml_readfact`, which skips texts. -/
def readfactLoop : Nat → List Str → List XmlObj → Except ReadError (List XmlObj × List Str)
  | 0, _, _ => .error .outOfFuel
  | _ + 1, [], content => .ok (content, [])
  | fuel + 1, line :: lines, content =>
      if line = ['>'] then
        match lines with
        | [] => .error .outOfRange
        | name :: rest =>
            if name = "fact".toList then .ok (content, name :: rest)
            else readfactLoop fuel rest content
      else if line = ['<'] then
        match lines with
        | [] => .error .outOfRange
        | name :: rest => do
            let (embedded, rest) ← readtreeLoop fuel name rest []
            readfactLoop fuel rest.tail (content ++ [.list name embedded])
      else readfactLoop fuel lines content

/-- The second loop of `halxml_readfacts`. -/
def readfactsLoop : Nat → List Str → Except ReadError (List XmlObj)
  | 0, _ => .error .outOfFuel
  | _ + 1, [] => .ok []
  | fuel + 1, line :: lines =>
      if line = ['<'] then
        match lines with
        | [] => .error .outOfRange
        | name :: rest =>
            if name = "fact".toList then do
              let (content, rest) ← readfactLoop fuel rest []
              let facts ← readfactsLoop fuel rest.tail
              return .list "fact".toList content :: facts
            else readfactsLoop fuel rest
      else readfactsLoop fuel lines

def halxmlReadfacts (prestr : Str) : Except ReadError (List XmlObj) := do
  let lines := splitLines prestr
  let _ ← Grammar2012.countFacts lines
  readfactsLoop (lines.length + 1) lines

/-! ## Import -/

mutual
def printStr : XmlObj → Str
  | .text text => text
  | .list name content =>
      let delem := if name = "and".toList ∨ name = "or".toList then ' ' :: name ++ [' '] else []
      printStrs delem content

def printStrs (delem : Str) : List XmlObj → Str
  | [] => []
  | [x] => printStr x
  | x :: y :: content => printStr x ++ delem ++ printStrs delem (y :: content)
end

/-- `print_str` of the parts with a name. -/
def printPart (x : XmlObj) (tagName : Str) : Str :=
  printStrs [' '] (x.content.filter (·.name = tagName))

/-- What is given to the storage, with the filename and the line of the fact. -/
inductive StorageCall where
  | addFact (columns : Record) (filename line : Str) (onlyLogic hasConditionalQuestionword : Bool)
  | addClause (rel : Int) (columns : Record) (filename line : Str)
deriving DecidableEq

/-- The flags that are read, up to five. -/
def readFlags (verbFlags : Str) : List Int :=
  if verbFlags.length = 5 then scanInts 5 verbFlags else []

variable (toFloat : Rat → Rat)

/-- The columns of a fact or of a clause. The flags stay zero where none is read. -/
def readColumns (x : XmlObj) : Record :=
  let flags := readFlags (printPart x "flags".toList)
  { subjects := printPart x "subject".toList
    objects := printPart x "object".toList
    verb := printPart x "verb".toList
    adverbs := printPart x "adverbs".toList
    extra := printPart x "extra".toList
    questionword := printPart x "questionword".toList
    truth := toFloat (scanFloat (printPart x "truth".toList))
    verbFlagWant := flags.getD 0 0
    verbFlagMust := flags.getD 1 0
    verbFlagCan := flags.getD 2 0
    verbFlagMay := flags.getD 3 0
    verbFlagShould := flags.getD 4 0 }

/-- `add_xml_fact` of a fact that was read without a file. `pk` is the key that the storage gives,
or zero where it gives no fact. -/
def addXmlFact (pk : Int) (xfact : XmlObj) : List StorageCall :=
  .addFact (readColumns toFloat xfact) [] [] false false ::
    if pk ≠ 0 then
      (xfact.content.filter (·.name = "clause".toList)).map fun xclause =>
        .addClause pk (readColumns toFloat xclause) [] []
    else []

end Freehal.Hal2012
