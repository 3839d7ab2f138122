import Freehal.Lib.Text

/-!
# Texts and words

The tests on words in `hal2012-universal-cxx.cpp` and the comparison of texts in
`hal2012-universal.c`. Texts are shorter than the 5120 characters that `matches` copies.
-/

namespace Freehal.Universal

def strstr (text part : Str) : Bool := decide (part <:+: text)

/-- `text.find(part) == 0` -/
def beginsWith (text part : Str) : Bool := part.isPrefixOf text

/-- An interned word. -/
structure Word where
  name : Str
deriving DecidableEq

/-- The settings that the matching reads: `config_match_variables` and the language of texts. -/
structure Config where
  matchVariables : Bool
  lang : Str

/-! ## Tests on words -/

def isAVariable (word : Str) : Bool :=
  word ∈ ["$a$", "$b$", "$c$", "$d$", "$e$", "$f$", "$g$", "$h$"].map String.toList

def isAEqualVerb (word : Str) : Bool :=
  beginsWith word "=".toList || beginsWith word "is-a".toList

def isAFactVerb (word : Str) : Bool :=
  ["=", "is-part", "is-own", "is-a"].any fun verb => beginsWith word verb.toList

def trivialWords : List String :=
  ["(a)", "_(a)_", "(the)", "_(the)_", "sehr", "viel", "viele", "weder", "noch", "schon", "bereits",
    "nur", "zu", "mit", "ohne", "in", "von"]

def trivialWordsEn : List String := ["the", "a", "an"]

def trivialWordsDe : List String :=
  ["der", "die", "das", "des", "den", "dem", "ein", "eine", "einer", "einem", "einen", "eines",
    "nicht"]

def isATrivialWord (cfg : Config) (word : Str) : Bool :=
  word ∈ trivialWords.map String.toList
    || (cfg.lang = "en".toList && decide (word ∈ trivialWordsEn.map String.toList))
    || (cfg.lang = "de".toList && decide (word ∈ trivialWordsDe.map String.toList))

def isConditionalQuestionword (word : Str) : Bool :=
  word ∈ ["if", "when", "wenn", "falls", "sobald"].map String.toList

/-- The words that neither `can_be_a_synonym` nor `is_important_word` lets through. -/
def functionWords : List String :=
  ["es", "*", "in", "im", "an", "am", "von", "vom", "auf", "so", "genau", "genauso", "$$aswellas$$",
    "$$notaswellas$$"]

def canBeASynonym (cfg : Config) (word : Str) : Bool :=
  !isATrivialWord cfg word
    && decide (word ∉ (functionWords ++ ["aus", "ab", "sich"]).map String.toList)
    && !strstr word "wie".toList

def isImportantWord (cfg : Config) (word : Str) : Bool :=
  (!isATrivialWord cfg word
      && decide (word ∉ (functionWords ++ ["wie", "(a)", "(the)", "der", "die", "das"]).map
        String.toList)
      && !strstr word "viel".toList && !strstr word "$".toList && !strstr word "ein".toList)
    || decide (word ∈ ["ich", "du", "_ich_", "_du_"].map String.toList)

/-- `is_bad` on a text that is a valid pointer: every other condition asks for a length below 1. -/
def isBad (text : Str) : Bool := text = []

def isGood (text : Str) : Bool := !isBad text

/-! ## Numbers -/

/-- `isspace` -/
def isSpace (c : Char) : Bool :=
  c ∈ [' ', '\t', '\n', Char.ofNat 11, Char.ofNat 12, '\r']

/-- `atoi` within the range of `int`. -/
def atoi (text : Str) : Int :=
  match text.dropWhile isSpace with
  | '-' :: digits => - (Nat.ofDigitChars 10 (digits.takeWhile Char.isDigit) 0 : Int)
  | '+' :: digits => Nat.ofDigitChars 10 (digits.takeWhile Char.isDigit) 0
  | digits => Nat.ofDigitChars 10 (digits.takeWhile Char.isDigit) 0

def toNumber : Str → Int
  | [] => 0
  | '-' :: digits => atoi digits
  | text => atoi text

/-! ## Splitting and joining -/

/-- `acc` is the text from `a` to `p`. A separator at `a` stays in front of the next piece. -/
def divideFrom (sep : Char) : Str → Str → List Str
  | acc, [] => if acc = [] then [] else [acc]
  | acc, c :: text =>
      if c ≠ sep then divideFrom sep (acc ++ [c]) text
      else if acc = [] then divideFrom sep [c] text
      else acc :: divideFrom sep [] text

def divideBy (sep : Char) (text : Str) : List Str := divideFrom sep [] text

/-- `join_words` -/
def joinWords (words : List Word) : Str := [' '].intercalate (words.map (·.name))

/-! ## Comparing texts -/

/-- The loop over a pattern that holds a star, but not in front: `acc` is the text from `c` to
`c + i`, and `size` is not reduced by the star itself when `c` moves on behind it. -/
def starLoop (a : Str) : Str → Nat → Str → Bool
  | acc, _, [] => strstr a acc
  | acc, size, ch :: pattern =>
      if ch = '*' then
        strstr a acc || (!decide (size ≤ acc.length + 2) && starLoop a [] (size - acc.length) pattern)
      else starLoop a (acc ++ [ch]) size pattern

/-- The loop over a pattern that holds an underscore, but not in front: `acc` is the text before
`c + i`, which ends at `cut` once an underscore near the end was cleared. -/
def underscoreLoop (a : Str) (size : Nat) : Str → Option Nat → Str → Bool
  | _, _, [] => true
  | acc, cut, ch :: pattern =>
      if ch = '_' then
        strstr a (acc.take (cut.getD acc.length))
          && underscoreLoop a size (acc ++ [' '])
            (if size ≤ acc.length + 2 then some (cut.getD acc.length) else cut) pattern
      else underscoreLoop a size (acc ++ [ch]) cut pattern

/-- `matches(a, b)`, where `swapped` stands for the call with the texts exchanged. -/
def matchesWith (swapped : Str → Str → Bool) (a : Str) : Str → Bool
  | [] => a = [] || ('*' ∈ a && swapped [] a)
  | ch :: b =>
      if a = ch :: b then true
      else if '*' ∈ ch :: b then
        if ch = '*' then matchesWith swapped a b else starLoop a [] (b.length + 1) (ch :: b)
      else if '_' ∈ ch :: b then
        if ch = '_' then matchesWith swapped a b
        else underscoreLoop a (b.length + 1) [] none (ch :: b)
      else '*' ∈ a && swapped (ch :: b) a

/-- The texts are exchanged when the second holds no star, so the exchanged call does not
exchange them again. -/
def matchesText (a b : Str) : Bool := matchesWith (matchesWith fun _ _ => false) a b

def matchesWithPipe (a b : Str) : Bool :=
  if '|' ∉ b then matchesText a b else (divideBy '|' b).any (matchesText a)

end Freehal.Universal
