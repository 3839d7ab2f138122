import Freehal.Pos.Tags
import Mathlib.Data.List.Nodup

/-!
# Writing and reading tags

Whether the file of the words of a tagger gives its map from words to tags back.
-/

namespace Freehal.Pos

open Index (readLines readLinesFrom)
open Lib (HashMap)

/-! ## The length of parts and lines -/

/-- The parts with a separator behind each of them. -/
theorem flatMap_partsFrom (splitBy : Char) (escaped : Bool) (text : Str) :
    (partsFrom splitBy escaped text).flatMap (· ++ [splitBy]) = text ++ [splitBy] := by
  induction text generalizing escaped with
  | nil => rfl
  | cons c text ih =>
      rw [partsFrom]
      split
      · rename_i hc
        simp only [Bool.and_eq_true, decide_eq_true_eq] at hc
        rw [List.flatMap_cons, ih, hc.1]
        rfl
      · have hrest := ih (decide (c = '\\'))
        cases hp : partsFrom splitBy (decide (c = '\\')) text with
        | nil =>
            rw [hp] at hrest
            simp at hrest
        | cons part parts =>
            rw [hp, List.flatMap_cons] at hrest
            rw [List.flatMap_cons, List.cons_append, List.cons_append, hrest]
            rfl

/-- The parts and a separator between any two of them are not longer than the text. Of several
parts the last one is not empty. -/
theorem splitEscaped_length (text : Str) (splitBy : Char) :
    ((splitEscaped text splitBy).flatMap (· ++ [splitBy])).length ≤ text.length + 1 ∧
      (2 ≤ (splitEscaped text splitBy).length →
        ∀ part, (splitEscaped text splitBy).getLast? = some part → part ≠ []) := by
  have hjoin := congrArg List.length (flatMap_partsFrom splitBy false text)
  rw [List.length_append, List.length_singleton] at hjoin
  unfold splitEscaped
  split
  · rename_i part hp
    rw [hp] at hjoin
    exact ⟨by omega, fun h => by simp at h⟩
  · refine ⟨?_, fun _ part hlast => ?_⟩
    · obtain ⟨rest, hrest⟩ := List.rdropWhile_prefix (fun part : Str => decide (part = []))
        (partsFrom splitBy false text)
      have hall := congrArg (fun l => (l.flatMap (· ++ [splitBy])).length) hrest
      simp only [List.flatMap_append, List.length_append] at hall
      omega
    · have hne : (partsFrom splitBy false text).rdropWhile (fun part : Str => decide (part = []))
          ≠ [] := by
        intro h
        rw [h] at hlast
        cases hlast
      have h := List.rdropWhile_last_not (fun part : Str => decide (part = [])) _ hne
      rw [List.getLast?_eq_getLast_of_ne_nil hne, Option.some.injEq] at hlast
      rw [hlast] at h
      simpa using h

theorem length_trimRight (line : Str) : (trimRight line).length ≤ line.length := by
  have hdrop : ∀ l : Str, (l.rdropWhile isSpace).length ≤ l.length := fun l =>
    (List.rdropWhile_prefix _ l).length_le
  unfold trimRight
  split
  · simp
  · split
    · rename_i c hc _
      have hne : line ≠ [] := by
        rintro rfl
        cases hc
      have hpos := List.length_pos_iff.mpr hne
      have := hdrop line.dropLast
      simp only [List.length_append, List.length_singleton, List.length_dropLast] at this ⊢
      omega
    · exact hdrop line

/-- Tags that were read are not written as an empty text, and they need a line that is longer than
the word and what is written. -/
theorem entryOf_length {line : Str} {e : Str × Tags} (h : entryOf line = some e) :
    e.1.length + 1 + e.2.toTagsFormat.length ≤ line.length ∧ 0 < e.2.toTagsFormat.length := by
  obtain ⟨hsum, hlast⟩ := splitEscaped_length (trimRight line) '|'
  have htrim := length_trimRight line
  unfold entryOf at h
  generalize splitEscaped (trimRight line) '|' = parts at h hsum hlast
  match parts with
  | [] => simp [tagsOf] at h
  | [_] => simp [tagsOf] at h
  | [word, category] =>
      have hne := hlast (by simp) category rfl
      have hpos := List.length_pos_iff.mpr hne
      simp only [tagsOf, List.head?_cons, Option.bind_eq_bind, Option.bind_some, Option.pure_def,
        Option.some.injEq] at h
      subst h
      simp [Tags.toTagsFormat] at hsum ⊢
      omega
  | [word, category, gender] =>
      simp only [tagsOf, List.head?_cons, Option.bind_eq_bind, Option.bind_some, Option.pure_def,
        Option.some.injEq] at h
      subst h
      simp [Tags.toTagsFormat] at hsum ⊢
      omega
  | _ :: _ :: _ :: _ :: _ => simp [tagsOf] at h

/-- A line is not longer than what stands in front of a line feed, or it is behind it. -/
theorem mem_readLinesFrom {skipLF : Bool} {acc a b line : Str}
    (h : line ∈ readLinesFrom skipLF acc (a ++ '\n' :: b)) :
    line.length ≤ acc.length + a.length ∨ line ∈ readLines b := by
  induction a generalizing skipLF acc with
  | nil =>
      rw [List.nil_append, readLinesFrom, if_pos rfl] at h
      split at h
      · exact Or.inr h
      · rcases List.mem_cons.mp h with rfl | h
        · exact Or.inl (by simp)
        · exact Or.inr h
  | cons c a ih =>
      rw [List.cons_append, readLinesFrom] at h
      have hstep : ∀ {skip : Bool} {acc' : Str}, line ∈ readLinesFrom skip acc' (a ++ '\n' :: b) →
          acc'.length ≤ acc.length + 1 →
          line.length ≤ acc.length + (c :: a).length ∨ line ∈ readLines b := by
        intro skip acc' hm hle
        rcases ih hm with h | h
        · exact Or.inl (by simp only [List.length_cons]; omega)
        · exact Or.inr h
      split at h
      · split at h
        · exact hstep h (by simp)
        · rcases List.mem_cons.mp h with rfl | h
          · exact Or.inl (by omega)
          · exact hstep h (by simp)
      · split at h
        · rcases List.mem_cons.mp h with rfl | h
          · exact Or.inl (by omega)
          · exact hstep h (by simp)
        · exact hstep h (by simp)

/-- A line of the file is not longer than a word with its colon, or than the tags of one. -/
theorem mem_readLines_writeTagsTo {words : List Word} {line : Str}
    (h : line ∈ readLines (writeTagsTo words)) : line = [] ∨ ∃ word ∈ words,
      line.length ≤ word.word.length + 1 ∨ line.length ≤ word.tag.toTagsFormat.length := by
  induction words with
  | nil => exact Or.inl (by simpa [writeTagsTo, readLines, readLinesFrom] using h)
  | cons word words ih =>
      have htext : writeTagsTo (word :: words) = (word.word ++ [':']) ++ '\n' ::
          (word.tag.toTagsFormat ++ '\n' :: writeTagsTo words) := by
        simp [writeTagsTo, Word.lines]
      rw [htext] at h
      rcases mem_readLinesFrom h with h | h
      · exact Or.inr ⟨word, by simp, Or.inl (by simpa using h)⟩
      · rcases mem_readLinesFrom h with h | h
        · exact Or.inr ⟨word, by simp, Or.inr (by simpa using h)⟩
        · rcases ih h with h | ⟨w, hw, h⟩
          · exact Or.inl h
          · exact Or.inr ⟨w, by simp [hw], h⟩

/-! ## The round trip -/

/-- The words of a tagger with their tags, in the order in which they are written. -/
structure TaggerState where
  entries : List (Str × Tags)
  distinct : (entries.map Prod.fst).Nodup

def TaggerState.get (s : TaggerState) (word : Str) : Option Tags :=
  (s.entries.find? (·.1 = word)).map (·.2)

/-- `none` when one of the words is rejected. -/
def TaggerState.words (s : TaggerState) : Option (List Word) :=
  s.entries.mapM fun e => Word.new e.1 e.2

/-- The file of the words is written, and reading it into an empty container gives the map. -/
def Restored (s : TaggerState) : Prop :=
  ∃ words, s.words = some words ∧
    ∀ word, (MemoryTagMap.add [] (writeTagsTo words)).get word = s.get word

theorem get_of_mem {s : TaggerState} {e : Str × Tags} (h : e ∈ s.entries) :
    s.get e.1 = some e.2 := by
  have hfind : s.entries.find? (·.1 = e.1) = some e := by
    obtain ⟨entries, hd⟩ := s
    change e ∈ entries at h
    induction entries with
    | nil => cases h
    | cons d entries ih =>
        obtain ⟨hne, hd⟩ := List.nodup_cons.mp hd
        rcases List.mem_cons.mp h with rfl | h
        · simp
        · have hde : d.1 ≠ e.1 := fun he => hne (he ▸ List.mem_map_of_mem h)
          rw [List.find?_cons_of_neg (by simpa using hde)]
          exact ih hd h
  rw [TaggerState.get, hfind]
  rfl

theorem mem_of_get_add {text word : Str} {tags : Tags}
    (h : (MemoryTagMap.add [] text).get word = some tags) : (word, tags) ∈ readTags text := by
  rcases HashMap.mem_putAll (m := []) (HashMap.mem_of_get h) with h | h
  · cases h
  · exact h

theorem Word.new_eq_some {word : Str} {tag : Tags} {w : Word} (h : Word.new word tag = some w) :
    w.word = word ∧ w.tag = tag := by
  unfold Word.new at h
  split at h
  · cases h
    exact ⟨rfl, rfl⟩
  · cases h

theorem mem_words {entries : List (Str × Tags)} {words : List Word}
    (h : entries.mapM (fun e => Word.new e.1 e.2) = some words) {w : Word} (hw : w ∈ words) :
    (w.word, w.tag) ∈ entries := by
  induction entries generalizing words with
  | nil =>
      simp only [List.mapM_nil, Option.pure_def, Option.some.injEq] at h
      subst h
      cases hw
  | cons e entries ih =>
      simp only [List.mapM_cons, Option.bind_eq_bind, Option.bind_eq_some_iff, Option.pure_def,
        Option.some.injEq] at h
      obtain ⟨first, hfirst, rest, hrest, rfl⟩ := h
      rcases List.mem_cons.mp hw with rfl | hw
      · obtain ⟨h1, h2⟩ := Word.new_eq_some hfirst
        rw [h1, h2]
        exact List.mem_cons_self
      · exact List.mem_cons_of_mem _ (ih hrest hw)

/-- The length of a word with its tags. -/
def entrySize (e : Str × Tags) : Nat := e.1.length + e.2.toTagsFormat.length

theorem exists_bound (entries : List (Str × Tags)) : ∃ n, ∀ e ∈ entries, entrySize e < n := by
  induction entries with
  | nil => exact ⟨0, fun _ h => (by cases h)⟩
  | cons d entries ih =>
      obtain ⟨n, hn⟩ := ih
      refine ⟨n + entrySize d + 1, fun e he => ?_⟩
      rcases List.mem_cons.mp he with rfl | he
      · omega
      · have := hn e he
        omega

/-- If all words are read back, each is read from what was written for a longer one. -/
theorem exists_longer {entries : List (Str × Tags)} {words : List Word}
    (hwords : entries.mapM (fun e => Word.new e.1 e.2) = some words)
    (hread : ∀ e ∈ entries, e ∈ readTags (writeTagsTo words)) {e : Str × Tags}
    (he : e ∈ entries) : ∃ e' ∈ entries, entrySize e < entrySize e' := by
  obtain ⟨line, hline, hentry⟩ := List.mem_filterMap.mp (hread e he)
  obtain ⟨hlen, hpos⟩ := entryOf_length hentry
  rcases mem_readLines_writeTagsTo hline with rfl | ⟨w, hw, hbound⟩
  · simp at hlen
  · have hmem := mem_words hwords hw
    obtain ⟨line', -, hentry'⟩ := List.mem_filterMap.mp (hread _ hmem)
    obtain ⟨-, hpos'⟩ := entryOf_length hentry'
    refine ⟨_, hmem, ?_⟩
    simp only [entrySize] at hpos' ⊢
    rcases hbound with hbound | hbound <;> omega

/-- The map is only given back when it is empty. -/
theorem tags_round_trip (s : TaggerState) : Restored s ↔ s.entries = [] := by
  constructor
  · rintro ⟨words, hwords, hget⟩
    by_contra hne
    have hread : ∀ e ∈ s.entries, e ∈ readTags (writeTagsTo words) := by
      intro e he
      exact mem_of_get_add ((hget e.1).trans (get_of_mem he))
    obtain ⟨n, hn⟩ := exists_bound s.entries
    have hall : ∀ k, ∃ e ∈ s.entries, k ≤ entrySize e := by
      intro k
      induction k with
      | zero =>
          obtain ⟨e, he⟩ := List.exists_mem_of_ne_nil _ hne
          exact ⟨e, he, Nat.zero_le _⟩
      | succ k ih =>
          obtain ⟨e, he, hk⟩ := ih
          obtain ⟨e', he', hlt⟩ := exists_longer hwords hread he
          exact ⟨e', he', by omega⟩
    obtain ⟨e, he, hle⟩ := hall n
    have := hn e he
    omega
  · intro h
    refine ⟨[], by simp [TaggerState.words, h], fun word => ?_⟩
    rw [TaggerState.get, h]
    rfl

/-- A tagger that knows one noun. -/
def oneNoun : TaggerState where
  entries := [("katze".toList, ⟨some "n".toList, some "f".toList⟩)]
  distinct := List.nodup_singleton _

/-- The word is on one line and its tags are on the next, which is read as a word of its own. -/
theorem tags_not_restored : ¬ ∀ s : TaggerState, Restored s := by
  intro h
  obtain ⟨words, hwords, hget⟩ := h oneNoun
  obtain rfl : words = [⟨"katze".toList, ⟨some "n".toList, some "f".toList⟩, by decide⟩] := by
    have : oneNoun.words = some [⟨"katze".toList, ⟨some "n".toList, some "f".toList⟩, by decide⟩] :=
      by decide +kernel
    rw [this] at hwords
    exact (Option.some.inj hwords).symm
  have hkatze := hget "katze".toList
  revert hkatze
  decide +kernel

end Freehal.Pos
