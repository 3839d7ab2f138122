import Freehal.Talk.FactSource
import Mathlib.Data.List.DropRight

/-!
# Sentences of a page

The functions of `hal2012-wiki.cpp` and `hal2012-util.cpp` that make a fact of a line. Texts are
bytes, and `char` is signed.
-/

namespace Freehal.Wiki

open Talk (replace)

/-! ## Searching a text -/

/-- `find` from a position on, which may be behind the end. -/
def find (text part : Str) (pos : Nat) : Option Nat :=
  (List.range (text.length + 1)).find? fun i => pos ≤ i && part.isPrefixOf (text.drop i)

def findFirstOf (text chars : Str) (pos : Nat) : Option Nat :=
  (List.range text.length).find? fun i => pos ≤ i && (text[i]?.any fun c => chars.contains c)

def contains (text part : Str) : Bool := (find text part 0).isSome

/-- A position in an `int`, where `npos` is -1. -/
def toInt : Option Nat → Int
  | some pos => pos
  | none => -1

/-! ## Tidying a line -/

/-- The loop of `remove_between`. -/
def removeFrom (start stop : Char) : Int → Str → Str
  | _, [] => []
  | gap, c :: orig =>
      let gap := if c = start then gap + 1 else gap
      (if gap = 0 then [c] else []) ++ removeFrom start stop (if c = stop then gap - 1 else gap) orig

def removeBetween (orig : Str) (start stop : Char) : Str := removeFrom start stop 0 orig

def trimIf (chars text : Str) : Str :=
  (text.dropWhile chars.contains).rdropWhile chars.contains

def replaceSpaces (s : Str) : Str :=
  trimIf " \t\r\n_".toList (s.map fun c => if " \t\r\n".toList.contains c then '_' else c)

/-- Some bytes. -/
def bytes (codes : List Nat) : Str := codes.map Char.ofNat

/-- What `ascii` replaces: umlauts and quotation marks in UTF-8, once and twice. -/
def asciiReplacements : List (Str × Str) :=
  [(bytes [0xC3, 0x83, 0xC2, 0xBC], "ue".toList), (bytes [0xC3, 0x83, 0xC2, 0x9F], "ss".toList),
    (bytes [0xC3, 0x83, 0xC2, 0xA4], "ae".toList), (bytes [0xC3, 0xBC], "ue".toList),
    (bytes [0xC3, 0x9F], "ss".toList), (bytes [0xC3, 0xA4], "ae".toList),
    (bytes [0xC3, 0xB6], "oe".toList), (bytes [0xC3, 0x9C], "Ue".toList),
    (bytes [0xC3, 0x84], "Ae".toList), (bytes [0xC3, 0x96], "Oe".toList),
    (bytes [0xC3, 0x83, 0xC2, 0xA2, 0xC3, 0x82, 0xC2, 0x80, 0xC3, 0x82, 0xC2, 0x9E], ['"']),
    (bytes [0xC3, 0x83, 0xC2, 0xA2, 0xC3, 0x82, 0xC2, 0x80, 0xC3, 0x82, 0xC2, 0x9C], ['"']),
    ("&lt;/br&gt;".toList, [' '])]

/-- `(short)(_ascii[x])` -/
def shortOf (c : Char) : Int := if c.toNat < 128 then c.toNat else c.toNat - 256

/-- The loop of `ascii`, after some characters that are skipped. -/
def asciiFrom : Nat → Str → Str
  | _, [] => []
  | skip + 1, _ :: text => asciiFrom skip text
  | 0, c :: text =>
      let y := shortOf c
      if y = 228 then "ae".toList ++ asciiFrom 0 text
      else if y = 196 then "Ae".toList ++ asciiFrom 0 text
      else if y = 252 then "ue".toList ++ asciiFrom 0 text
      else if y = 220 then "Ue".toList ++ asciiFrom 0 text
      else if y = 246 then "oe".toList ++ asciiFrom 0 text
      else if y = 214 then "Oe".toList ++ asciiFrom 0 text
      else if y = 223 then "ss".toList ++ asciiFrom 0 text
      else if y = 226 then asciiFrom 2 text
      else if y > 129 then asciiFrom 1 text
      else c :: asciiFrom 0 text

def ascii (notAscii : Str) : Str :=
  asciiFrom 0 (asciiReplacements.foldl (fun text r => replace text r.1 r.2) notAscii)

/-! ## Verb and object -/

/-- The position of the first article that is found, and 0 if there is none. -/
def articlePosition (sentence : Str) (articles : List String) : Int :=
  articles.foldl (fun position article =>
    let pos := toInt (find sentence (article.toList ++ [' ']) 0)
    if pos ≠ -1 ∧ (position = 0 ∨ pos < position) then pos else position) 0

def defineGeneralVerb (lang sentence : Str) : Str :=
  let isGerman := decide (lang = "de".toList)
  let isEnglish := decide (lang = "en".toList)
  let position (de en : String) := toInt (find sentence (if isGerman then de else en).toList 0)
  let ist := position " ist " " is "
  let sind := position " sind " " are "
  let war := position " war " " was "
  let waren := position " waren " " were "
  let dot : Int := (find sentence ['.'] 0).getD sentence.length
  let komma : Int := (find sentence [','] 0).getD sentence.length
  let articleIndef := articlePosition sentence
    (if isGerman then ["ein", "eine", "Ein", "Eine"] else if isEnglish then ["a", "A"] else [])
  let articleDef := articlePosition sentence
    (if isGerman then ["der", "die", "das", "Der", "Die", "Das"]
      else if isEnglish then ["the", "The"] else [])
  let has (part : String) := contains sentence part.toList
  let equals (article verb : Int) := article < verb && verb < dot && article < komma
  if has " gehoeren" && toInt (find sentence " gehoeren".toList 0) < dot then "equal-pl-def".toList
  else if equals articleDef ist then "equal-sg-def".toList
  else if equals articleIndef ist then "equal-sg-indef".toList
  else if equals articleDef sind then "equal-pl-def".toList
  else if equals articleIndef sind then "equal-pl-indef".toList
  else if ist < dot then "equal-sg".toList
  else if sind < dot then "equal-pl".toList
  else if war < dot then "equal-sg".toList
  else if waren < dot then "equal-pl".toList
  else if has " entspri" then "equal-sg".toList
  else if has " entspre" then "equal-pl".toList
  else if has " nennt man " then "equal-pl".toList
  else if has "bezeichnen" then "equal-pl".toList
  else if has "beschreibt" then "equal".toList
  else if has "beschreiben" then "equal".toList
  else if has " und " then "equal-pl".toList
  else "equal-sg".toList

def transformVerbs (lang : Str) : List String :=
  if lang = "de".toList then
    ["ist", "sind", "war", "waren", "heissen", "versteht man", "bezeichnet man", "nennt man",
      "entspricht", "entsprechen", "gehoeren zu den", "gehoeren zu der", "gehoeren zu",
      "gehoert zu den", "gehoert zu der", "gehoert zu", "entsprach", "beschreibt", "beschreiben",
      "bezeichnet"]
  else if lang = "en".toList then ["is", "are", "was", "were", "means", "describes"]
  else []

/-- What stands behind the first verb that is found, with a limit for its position. -/
def behindVerb (sentence : Str) (limit : Nat) (verbs : List String) (verbStr : Str) : Str :=
  verbs.foldl (fun verbStr verb =>
    if verbStr.length > 0 then verbStr
    else
      let verb := ' ' :: verb.toList ++ [' ']
      match find sentence verb 0 with
      | some pos => if pos < limit then sentence.drop (pos + verb.length) else verbStr
      | none => verbStr) verbStr

def dotAllowed : List String :=
  ["bspw", "mio", "mrd", "mr", "mrs", "dr", "dres", "0", "1", "2", "3", "4", "5", "6", "7", "8", "9"]

def transformSentence (lang sentence : Str) : Str :=
  let verbs := transformVerbs lang
  -- without a dot, every position is in front of it
  let verbStr := behindVerb sentence ((find sentence ['.'] 0).getD (sentence.length + 1)) verbs []
  let verbStr := behindVerb sentence (sentence.length + 1) verbs verbStr
  let verbStr := if verbStr.length = 0 then sentence else verbStr
  let verbStr := dotAllowed.foldl (fun text allowed =>
    let text := replace text (allowed.toList ++ ['.']) allowed.toList
    replace text ('.' :: allowed.toList) allowed.toList) verbStr
  let objectEnd :=
    match findFirstOf verbStr "ABCDEFGHIJKLMNOPQRSTUVWXYZ".toList 0 with
    | some upper => (findFirstOf verbStr [' '] (upper + 1)).getD 0
    | none => 0
  match findFirstOf verbStr ".!?".toList objectEnd with
  | some dot => verbStr.take dot
  | none => verbStr

end Freehal.Wiki
