import Freehal.Index.Freshness
import Freehal.Index.SynonymIndex
import Freehal.Lib.Fold

/-!
# The file of the synonyms

`writeSynonyms` and `readSynonyms`. The classes come back, and with them a class of the empty word
from the line that the reader makes of the end of the file.
-/

namespace Freehal.Index

open Lib (mapM_eq_some_iff forall₂_mem_right)

variable {order : List Str → List Str} {map : SynonymIndex} {text acc : Str} {skipLF : Bool}

/-- `StringUtils.join("|", synonyms)`. There is no first word of nothing: an exception. -/
def joinBar : List Str → Option Str
  | [] => none
  | words => some (['|'].intercalate words)

/-- `print`. The parameter is the order in which a hash set is iterated. -/
def print (order : List Str → List Str) (map : SynonymIndex) : Option Str :=
  (map.mapM fun synonyms => (joinBar (order synonyms)).map (· ++ ['\n'])).map List.flatten

/-- `line.split("[|]")`. Empty parts at the end are dropped. -/
def splitBar (line : Str) : List Str :=
  if '|' ∈ line then ((line.splitOn '|').reverse.dropWhile (· = [])).reverse else [line]

/-- `readSynonyms`: each line is a set of its own, `addSynonyms` is not called. -/
def readSynonyms (map : SynonymIndex) (text : Str) : SynonymIndex :=
  map ++ (readLines text).map fun line => setAddAll [] (splitBar line)

/-- `writeSynonyms` and then `readSynonyms` of an empty index. -/
def saveAndLoad (order : List Str → List Str) (map : SynonymIndex) : Option SynonymIndex :=
  (print order map).map (readSynonyms [])

/-- The same classes, in whatever order the index and each class have them. -/
def SameClasses (map map' : SynonymIndex) : Prop :=
  ∃ perm, map.Perm perm ∧ List.Forall₂ (fun set set' => ∀ word, word ∈ set ↔ word ∈ set') perm map'

/-! ## One class more -/

theorem count_lt_length_readLinesFrom (skipLF : Bool) (acc text : Str) :
    text.count '\n' < (readLinesFrom skipLF acc text).length + skipLF.toNat := by
  induction text generalizing skipLF acc with
  | nil =>
      rw [readLinesFrom]
      split <;> simp only [List.count_nil, List.length_cons, List.length_nil] <;> omega
  | cons c text ih =>
      rw [readLinesFrom]
      by_cases hlf : c = '\n'
      · have hrest := ih false []
        rw [hlf, List.count_cons_self, if_pos rfl]
        cases skipLF with
        | false => simpa using hrest
        | true => simpa using hrest
      · rw [List.count_cons_of_ne hlf, if_neg hlf]
        by_cases hcr : c = '\r'
        · have hrest := ih true []
          rw [if_pos hcr, List.length_cons]
          simp only [Bool.toNat_true] at hrest
          omega
        · have hrest := ih false (acc ++ [c])
          rw [if_neg hcr]
          simp only [Bool.toNat_false] at hrest
          omega

theorem length_le_count_flatten {lines : List Str} (h : ∀ line ∈ lines, '\n' ∈ line) :
    lines.length ≤ lines.flatten.count '\n' := by
  induction lines with
  | nil => simp
  | cons line lines ih =>
      have hline : 0 < line.count '\n' := List.count_pos_iff.mpr (h line (by simp))
      have hrest := ih fun line' hline' => h line' (by simp [hline'])
      rw [List.flatten_cons, List.count_append, List.length_cons]
      omega

theorem length_le_count_print (h : print order map = some text) :
    map.length ≤ text.count '\n' := by
  obtain ⟨lines, hlines, rfl⟩ := Option.map_eq_some_iff.mp h
  have hforall := mapM_eq_some_iff.mp hlines
  rw [hforall.length_eq]
  apply length_le_count_flatten
  intro line hline
  obtain ⟨synonyms, -, hjoin⟩ := forall₂_mem_right hforall hline
  obtain ⟨joined, -, rfl⟩ := Option.map_eq_some_iff.mp hjoin
  simp

theorem length_saveAndLoad {map' : SynonymIndex} (h : saveAndLoad order map = some map') :
    map.length < map'.length := by
  obtain ⟨text, hprint, rfl⟩ := Option.map_eq_some_iff.mp h
  have hcount := length_le_count_print hprint
  have hlines := count_lt_length_readLinesFrom false [] text
  simp only [Bool.toNat_false, Nat.add_zero] at hlines
  simp only [readSynonyms, readLines, List.nil_append, List.length_map]
  omega

theorem SameClasses.length_eq {map' : SynonymIndex} (h : SameClasses map map') :
    map.length = map'.length := by
  obtain ⟨perm, hperm, hforall⟩ := h
  rw [hperm.length_eq, hforall.length_eq]

/-- No index comes back from its file with the same classes. -/
theorem saveAndLoad_not_same (order : List Str → List Str) (map : SynonymIndex) :
    ¬ ∃ map', saveAndLoad order map = some map' ∧ SameClasses map map' := by
  rintro ⟨map', hload, hsame⟩
  have hlength := length_saveAndLoad hload
  have heq := hsame.length_eq
  omega

/-- No file of an empty index is an empty index: its last line is the class of the empty word. -/
theorem empty_not_same :
    ¬ ∃ map', saveAndLoad id [] = some map' ∧ SameClasses [] map' := by
  rintro ⟨map', hload, hsame⟩
  have heq := hsame.length_eq
  cases hload
  exact absurd heq (by decide)

/-! ## What does come back -/

/-- Classes of words that the file can hold. -/
structure Writable (order : List Str → List Str) (synonyms : List Str) : Prop where
  perm : (order synonyms).Perm synonyms
  nodup : synonyms.Nodup
  ne : synonyms ≠ []
  words : ∀ word ∈ synonyms, word ≠ [] ∧ '|' ∉ word ∧ Plain word

theorem setAddAll_append {set words : List Str} (h : (set ++ words).Nodup) :
    setAddAll set words = set ++ words := by
  induction words generalizing set with
  | nil => simp [setAddAll]
  | cons word words ih =>
      have hword : word ∉ set := by
        intro hmem
        have := (List.nodup_append.mp h).2.2 word hmem word (by simp)
        exact this rfl
      have hcons : setAddAll set (word :: words) = setAddAll (setAdd set word) words := rfl
      have hadd : setAdd set word = set ++ [word] := by
        rw [setAdd, if_neg]
        simpa using hword
      rw [hcons, hadd, ih (by simpa using h)]
      simp

theorem splitBar_intercalate {words : List Str} (hne : words ≠ [])
    (h : ∀ word ∈ words, word ≠ [] ∧ '|' ∉ word) : splitBar (['|'].intercalate words) = words := by
  have hsplit : (['|'].intercalate words).splitOn '|' = words :=
    List.splitOn_intercalate '|' (fun word hword => (h word hword).2) hne
  unfold splitBar
  split
  · have hlast : words.reverse.dropWhile (· = []) = words.reverse := by
      have hreverse : words.reverse ≠ [] := by simpa using hne
      obtain ⟨last, rest, hrest⟩ := List.exists_cons_of_ne_nil hreverse
      have hmem : last ∈ words := by
        rw [← List.mem_reverse, hrest]
        simp
      rw [hrest, List.dropWhile_cons_of_neg (by simpa using (h last hmem).1)]
    rw [hsplit, hlast, List.reverse_reverse]
  · case isFalse hbar =>
      rw [List.splitOn_eq_singleton hbar] at hsplit
      exact hsplit

theorem mem_intercalate {c : Char} {words : List Str} (h : c ∈ ['|'].intercalate words) :
    c = '|' ∨ ∃ word ∈ words, c ∈ word := by
  induction words with
  | nil => simp at h
  | cons word words ih =>
      cases words with
      | nil => exact Or.inr ⟨word, by simp, by simpa using h⟩
      | cons next words =>
          rw [List.intercalate_cons_cons, List.mem_append, List.mem_append] at h
          rcases h with (h | h) | h
          · exact Or.inr ⟨word, by simp, h⟩
          · exact Or.inl (by simpa using h)
          · rcases ih h with hbar | ⟨word', hword', hc⟩
            · exact Or.inl hbar
            · exact Or.inr ⟨word', by simp [hword'], hc⟩

theorem Writable.line {synonyms : List Str} (h : Writable order synonyms) :
    ∃ line, joinBar (order synonyms) = some line ∧ Plain line ∧
      setAddAll [] (splitBar line) = order synonyms := by
  have hwords : ∀ word ∈ order synonyms, word ≠ [] ∧ '|' ∉ word ∧ Plain word :=
    fun word hword => h.words word (h.perm.mem_iff.mp hword)
  have hne : order synonyms ≠ [] := by
    intro hnil
    exact h.ne (List.perm_nil.mp (hnil ▸ h.perm).symm)
  have hplain : ∀ c ∈ ['|'].intercalate (order synonyms), c ≠ '\n' ∧ c ≠ '\r' := by
    intro c hc
    rcases mem_intercalate hc with rfl | ⟨word, hword, hc⟩
    · decide
    · obtain ⟨-, -, hlf, hcr⟩ := hwords word hword
      exact ⟨fun heq => hlf (heq ▸ hc), fun heq => hcr (heq ▸ hc)⟩
  refine ⟨['|'].intercalate (order synonyms), ?_, ?_, ?_⟩
  · rw [joinBar.eq_def]
    split
    · case h_1 heq => exact absurd heq hne
    · rfl
  · exact ⟨fun hlf => (hplain _ hlf).1 rfl, fun hcr => (hplain _ hcr).2 rfl⟩
  · have hbar : ∀ word ∈ order synonyms, word ≠ [] ∧ '|' ∉ word :=
      fun word hword => ⟨(hwords word hword).1, (hwords word hword).2.1⟩
    rw [splitBar_intercalate hne hbar]
    exact @setAddAll_append [] _ (by simpa using h.perm.nodup_iff.mpr h.nodup)

/-- The classes come back in their order, and then the class of the empty word. -/
theorem saveAndLoad_writable (h : ∀ synonyms ∈ map, Writable order synonyms) :
    saveAndLoad order map = some (map.map order ++ [[[]]]) := by
  have hprint : ∃ text, print order map = some text ∧
      (readLines text).map (fun line => setAddAll [] (splitBar line)) = map.map order ++ [[[]]] := by
    induction map with
    | nil => exact ⟨[], rfl, rfl⟩
    | cons synonyms map ih =>
        obtain ⟨text, hprint, hread⟩ := ih fun synonyms' hmem => h synonyms' (by simp [hmem])
        obtain ⟨lines, hlines, rfl⟩ := Option.map_eq_some_iff.mp hprint
        obtain ⟨line, hjoin, hplain, hclass⟩ := (h synonyms (by simp)).line
        refine ⟨line ++ '\n' :: lines.flatten, ?_, ?_⟩
        · rw [print, List.mapM_cons, hlines, hjoin]
          simp
        · have hline := @readLinesFrom_line line [] hplain lines.flatten
          rw [readLines, hline, List.map_cons, List.nil_append, hclass, hread]
          rfl
  obtain ⟨text, hprint, hread⟩ := hprint
  rw [saveAndLoad, hprint, Option.map_some, readSynonyms, List.nil_append, hread]

end Freehal.Index
