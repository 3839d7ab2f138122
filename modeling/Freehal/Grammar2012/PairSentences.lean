import Freehal.Grammar2012.XmlObj
import Freehal.Lib.Pairing
import Freehal.Talk.FactSource

/-!
# Sentences for pairs of parts

`build_pair_sentences` of `hal2012-parser2012.cpp`.
-/

namespace Freehal.Grammar2012

open Lib (CoversPairs Tidy cleanPairs coversPairs_iff_tidy)
open Talk (replaceFrom replace)

/-! ## The sentences -/

/-- `boost::replace_all`, which finds no empty text. -/
def strReplace (str tofind repl : Str) : Str := if tofind = [] then str else replace str tofind repl

/-- `regex_replace(str, "\\s+", "_")`, behind a blank or not. -/
def joinWords : Bool → Str → Str
  | _, [] => []
  | blank, c :: str =>
      if isTrimmed c then (if blank then [] else ['_']) ++ joinWords true str
      else c :: joinWords false str

/-- What the inner loop does with a part. -/
def cleanPart (part : Str) : Str :=
  joinWords false (trim (strReplace (strReplace part "STOP".toList []) ['"'] []))

/-- `boost::split`, with separators next to each other taken as one. -/
def splitCompress (sep : Char) : Str → List Str
  | [] => [[]]
  | c :: str =>
      if c ≠ sep then (splitCompress sep str).modifyHead (c :: ·)
      else if str.head? = some sep then splitCompress sep str
      else [] :: splitCompress sep str

def partsOf (str divideby : Str) : List Str :=
  splitCompress '@' (strReplace (trim str) divideby ['@'])

def sentence (joinby : Str) (pair : Str × Str) : Str :=
  ['_'] ++ pair.1 ++ "_ ".toList ++ joinby ++ " _".toList ++ pair.2 ++ "_ STOP ".toList

/-- The parts of the sentences. -/
def pairsOf (str divideby : Str) : List (Str × Str) := cleanPairs cleanPart (partsOf str divideby)

def buildPairSentences (str divideby joinby : Str) : Str :=
  (pairsOf str divideby).flatMap (sentence joinby)

/-! ## Cleaning a part -/

theorem replaceFrom_sublist (rep : Str) (skip : Nat) (text : Str) :
    (replaceFrom rep [] skip text).Sublist text := by
  induction text generalizing skip with
  | nil => exact List.Sublist.slnil
  | cons c text ih =>
      cases skip with
      | succ skip => exact (ih skip).cons c
      | zero =>
          rw [replaceFrom]
          split
          · exact (ih _).cons c
          · exact (ih 0).cons_cons c

theorem strReplace_sublist (str tofind : Str) : (strReplace str tofind []).Sublist str := by
  unfold strReplace
  split
  · exact List.Sublist.refl str
  · exact replaceFrom_sublist tofind 0 str

theorem trim_sublist (str : Str) : (trim str).Sublist str :=
  (List.rdropWhile_prefix _ _).sublist.trans (List.dropWhile_sublist _)

theorem joinWords_of_no_space {str : Str} (h : ∀ c ∈ str, isTrimmed c = false) (blank : Bool) :
    joinWords blank str = str := by
  induction str generalizing blank with
  | nil => rfl
  | cons c str ih =>
      obtain ⟨hc, hrest⟩ := List.forall_mem_cons.mp h
      rw [joinWords, hc, if_neg Bool.false_ne_true, ih hrest]

theorem joinWords_length (blank : Bool) (str : Str) : (joinWords blank str).length ≤ str.length := by
  induction str generalizing blank with
  | nil => exact Nat.le_refl 0
  | cons c str ih =>
      have htrue := ih true
      have hfalse := ih false
      rw [joinWords]
      cases isTrimmed c <;> cases blank <;> simp <;> omega

theorem countP_joinWords (blank : Bool) (str : Str) : (joinWords blank str).countP isTrimmed = 0 := by
  induction str generalizing blank with
  | nil => rfl
  | cons c str ih =>
      rw [joinWords]
      cases hc : isTrimmed c with
      | true => cases blank <;> simp [ih, isTrimmed]
      | false => simp [ih, hc]

/-- The length of a part, with blanks counted twice. -/
def partSize (part : Str) : Nat := part.length + part.countP isTrimmed

theorem partSize_of_sublist {s t : Str} (h : s.Sublist t) : s = t ∨ partSize s < partSize t := by
  rcases Nat.lt_or_ge s.length t.length with hlt | hle
  · exact Or.inr (Nat.add_lt_add_of_lt_of_le hlt h.countP_le)
  · exact Or.inl (h.eq_of_length_le hle)

theorem partSize_joinWords (str : Str) :
    joinWords false str = str ∨ partSize (joinWords false str) < partSize str := by
  rcases Nat.eq_zero_or_pos (str.countP isTrimmed) with hzero | hpos
  · exact Or.inl (joinWords_of_no_space (fun c hc => by
      simpa using List.countP_eq_zero.mp hzero c hc) false)
  · have hlength := joinWords_length false str
    refine Or.inr ?_
    rw [partSize, partSize, countP_joinWords]
    omega

theorem cleanPart_smaller (part : Str) :
    cleanPart part = part ∨ partSize (cleanPart part) < partSize part := by
  have hsublist := (trim_sublist _).trans
    ((strReplace_sublist (strReplace part "STOP".toList []) ['"']).trans
      (strReplace_sublist part "STOP".toList))
  unfold cleanPart
  generalize trim (strReplace (strReplace part "STOP".toList []) ['"'] []) = trimmed at hsublist ⊢
  rcases partSize_of_sublist hsublist with rfl | hlt
  · exact partSize_joinWords trimmed
  · rcases partSize_joinWords trimmed with heq | hlt'
    · exact Or.inr (heq.symm ▸ hlt)
    · exact Or.inr (Nat.lt_trans hlt' hlt)

/-! ## The pairs -/

/-- There is a sentence for every pair exactly when every part but the first is clean from the
beginning, and the first one is after one cleaning. -/
theorem pairsOf_covers_iff (str divideby : Str)
    (hdistinct : ((partsOf str divideby).map cleanPart).Nodup) :
    CoversPairs ((partsOf str divideby).map cleanPart) (pairsOf str divideby) ↔
      Tidy cleanPart (partsOf str divideby) :=
  coversPairs_iff_tidy cleanPart_smaller hdistinct

theorem pairsOf_covers_animals :
    CoversPairs ((partsOf "Katze=Kater=Tier".toList ['=']).map cleanPart)
        (pairsOf "Katze=Kater=Tier".toList ['=']) ↔
      Tidy cleanPart (partsOf "Katze=Kater=Tier".toList ['=']) :=
  pairsOf_covers_iff _ _ (by decide +kernel)

/-- With blanks around the parts, every part but the first is paired with itself. -/
theorem pairsOf_blanks :
    ((partsOf "Katze = Kater = Tier".toList ['=']).map cleanPart).Nodup ∧
      ("Kater".toList, "Kater".toList) ∈ pairsOf "Katze = Kater = Tier".toList ['='] ∧
        ¬ CoversPairs ((partsOf "Katze = Kater = Tier".toList ['=']).map cleanPart)
          (pairsOf "Katze = Kater = Tier".toList ['=']) := by
  have hself : ("Kater".toList, "Kater".toList) ∈ pairsOf "Katze = Kater = Tier".toList ['='] := by
    decide +kernel
  exact ⟨by decide +kernel, hself, fun h => ((h.2 _ _).mp hself).2.2 rfl⟩

end Freehal.Grammar2012
