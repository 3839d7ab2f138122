import Freehal.Lib.Fold
import Freehal.Lib.Lists
import Freehal.Pos.Batches

/-!
# Four stores for one file

When the containers in the memory and the readers on the disk know the same tags.
-/

namespace Freehal.Pos

open Index (readLines)
open Lib (decimal mapM_eq_none_iff findSome?_flatMap findSome?_congr findSome?_first)
open Xml (utf16)

/-! ## What the cached reader finds -/

/-- What the reader takes for the tags of `word` in the line of the tags of an entry. -/
def foundFor (word : Str) (e : Str × Tags) : Option Tags :=
  if getKey ((e.1.flatMap utf16).take 2) = getKey (word.flatMap utf16) then
    searchLine (word ++ ['|']) e.2.toTagsFormat
  else none

/-- The tags that are found in a batch. -/
def foundIn (word : Str) (batch : List (Str × Tags)) : List Tags := batch.filterMap (foundFor word)

def Word.entry (word : Word) : Str × Tags := (word.word, word.tag)

/-- The answer from what a batch adds to the directory of the word. -/
def answer (ord : WriteOrder) (word : Str) (batch : List Word) : Option Tags :=
  (dirWords ord (getKey (word.flatMap utf16)) batch).findSome? fun w => foundFor word w.entry

theorem mem_dirWords {ord : WriteOrder} {dir : Str} {batch : List Word} {word : Word} :
    word ∈ dirWords ord dir batch ↔ word ∈ batch ∧ getKey word.substring = dir := by
  simp only [dirWords, List.mem_flatMap, (ord.keySet_perm _).mem_iff, mem_cacheOf]
  constructor
  · rintro ⟨e, ⟨heq, -⟩, hword⟩
    split at hword
    · rename_i hdir
      rw [(ord.words_perm _).mem_iff, heq, List.mem_filter, decide_eq_true_eq] at hword
      exact ⟨hword.1, hword.2 ▸ hdir⟩
    · cases hword
  · rintro ⟨hword, hdir⟩
    have hmem : word ∈ batch.filter (·.substring = word.substring) := by simp [hword]
    refine ⟨(word.substring, _), ⟨rfl, List.ne_nil_of_mem hmem⟩, ?_⟩
    rw [if_pos hdir, (ord.words_perm _).mem_iff]
    exact hmem

theorem answer_eq_none {ord : WriteOrder} {word : Str} {batch : List Word} :
    answer ord word batch = none ↔ foundIn word (batch.map Word.entry) = [] := by
  simp only [answer, foundIn, List.findSome?_eq_none_iff, List.filterMap_eq_nil_iff, List.mem_map,
    mem_dirWords]
  constructor
  · rintro h _ ⟨w, hw, rfl⟩
    by_cases hdir : getKey w.substring = getKey (word.flatMap utf16)
    · exact h w ⟨hw, hdir⟩
    · exact if_neg hdir
  · rintro h w ⟨hw, -⟩
    exact h _ ⟨w, hw, rfl⟩

theorem mem_of_answer {ord : WriteOrder} {word : Str} {batch : List Word} {tags : Tags}
    (h : answer ord word batch = some tags) : tags ∈ foundIn word (batch.map Word.entry) := by
  obtain ⟨w, hw, htags⟩ := List.exists_of_findSome?_eq_some h
  exact List.mem_filterMap.mpr ⟨_, List.mem_map_of_mem (mem_dirWords.mp hw).1, htags⟩

/-- An order in which a key and a word of it come first. -/
def WriteOrder.first (word : Word) : WriteOrder where
  keySet cache := cache.filter (·.1 = word.substring) ++
    cache.filter fun e => !decide (e.1 = word.substring)
  words ws := ws.filter (· = word) ++ ws.filter fun w => !decide (w = word)
  keySet_perm _ := List.filter_append_perm _ _
  words_perm _ := List.filter_append_perm _ _

/-- Whatever is found in a batch is the answer in some order. -/
theorem exists_answer {word : Str} {batch : List Word} {tags : Tags}
    (h : tags ∈ foundIn word (batch.map Word.entry)) :
    ∃ ord, answer ord word batch = some tags := by
  obtain ⟨_, he, htags⟩ := List.mem_filterMap.mp h
  obtain ⟨w, hw, rfl⟩ := List.mem_map.mp he
  have hdir : getKey w.substring = getKey (word.flatMap utf16) := by
    by_contra hne
    have hnone : foundFor word w.entry = none := if_neg hne
    rw [htags] at hnone
    cases hnone
  have hmem : w ∈ batch.filter (·.substring = w.substring) := by simp [hw]
  have hentry : (w.substring, batch.filter (·.substring = w.substring)) ∈ cacheOf batch :=
    mem_cacheOf.mpr ⟨rfl, List.ne_nil_of_mem hmem⟩
  refine ⟨WriteOrder.first w, ?_⟩
  rw [answer, dirWords, findSome?_flatMap]
  refine findSome?_first (List.ne_nil_of_mem (List.mem_filter.mpr ⟨hentry, by simp⟩)) ?_
  intro e he
  obtain ⟨hcache, hkey⟩ := List.mem_filter.mp he
  rw [decide_eq_true_eq] at hkey
  rw [hkey, if_pos hdir]
  have hword : w ∈ e.2 := by
    rw [(mem_cacheOf.mp hcache).1, hkey]
    exact hmem
  refine findSome?_first (List.ne_nil_of_mem (List.mem_filter.mpr ⟨hword, by simp⟩)) ?_
  intro w' hw'
  rw [List.mem_filter, decide_eq_true_eq] at hw'
  rw [hw'.2]
  exact htags

/-- What is found in the first batch in which something is found. -/
def firstFound (word : Str) (batches : List (List (Str × Tags))) : List Tags :=
  ((batches.map (foundIn word)).find? (· ≠ [])).getD []

theorem findSome?_answer {ord : WriteOrder} {word : Str} {batches : List (List Word)} :
    (batches.findSome? (answer ord word) = none ↔
      firstFound word (batches.map (List.map Word.entry)) = []) ∧
    ∀ tags, batches.findSome? (answer ord word) = some tags →
      tags ∈ firstFound word (batches.map (List.map Word.entry)) := by
  induction batches with
  | nil => exact ⟨⟨fun _ => rfl, fun _ => rfl⟩, fun _ h => (by cases h)⟩
  | cons batch batches ih =>
      by_cases hfound : foundIn word (batch.map Word.entry) = []
      · have hfirst : firstFound word ((batch :: batches).map (List.map Word.entry)) =
            firstFound word (batches.map (List.map Word.entry)) := by
          simp [firstFound, hfound]
        rw [List.findSome?_cons, answer_eq_none.mpr hfound, hfirst]
        exact ih
      · have hfirst : firstFound word ((batch :: batches).map (List.map Word.entry)) =
            foundIn word (batch.map Word.entry) := by
          simp [firstFound, hfound]
        obtain ⟨tags, htags⟩ := Option.ne_none_iff_exists'.mp (mt answer_eq_none.mp hfound)
        rw [List.findSome?_cons, htags, hfirst]
        refine ⟨⟨fun h => (by cases h), fun h => absurd h hfound⟩, fun tags' h => ?_⟩
        cases h
        exact mem_of_answer htags

theorem exists_findSome?_answer {word : Str} {batches : List (List Word)} {tags : Tags}
    (h : tags ∈ firstFound word (batches.map (List.map Word.entry))) :
    ∃ ord, batches.findSome? (answer ord word) = some tags := by
  induction batches with
  | nil => cases h
  | cons batch batches ih =>
      by_cases hfound : foundIn word (batch.map Word.entry) = []
      · obtain ⟨ord, hord⟩ := ih (by simpa [firstFound, hfound] using h)
        exact ⟨ord, by rw [List.findSome?_cons, answer_eq_none.mpr hfound, hord]⟩
      · obtain ⟨ord, hord⟩ := exists_answer (by simpa [firstFound, hfound] using h)
        exact ⟨ord, by rw [List.findSome?_cons, hord]⟩

/-! ## The cached reader -/

theorem Word.new_eq_none {word : Str} {tag : Tags} :
    Word.new word tag = none ↔ isRejected word = true := by
  unfold Word.new
  split
  · next h => simp [h]
  · next h => simpa using h

theorem mapM_word_eq_none {entries : List (Str × Tags)} :
    (entries.mapM fun e => Word.new e.1 e.2) = none ↔ ∃ e ∈ entries, isRejected e.1 = true := by
  simp only [mapM_eq_none_iff, Word.new_eq_none]

theorem map_entry {entries : List (Str × Tags)} {words : List Word}
    (h : (entries.mapM fun e => Word.new e.1 e.2) = some words) :
    words.map Word.entry = entries := by
  induction entries generalizing words with
  | nil =>
      cases h
      rfl
  | cons e entries ih =>
      simp only [List.mapM_cons, Option.bind_eq_bind, Option.bind_eq_some_iff, Option.pure_def,
        Option.some.injEq] at h
      obtain ⟨first, hfirst, rest, hrest, rfl⟩ := h
      obtain ⟨h1, h2⟩ := Word.new_eq_some hfirst
      rw [List.map_cons, ih hrest, Word.entry, h1, h2]

/-- The files of a new reader are those of the words, batch by batch. -/
theorem add_fresh (ord : WriteOrder) (file : PosFile) :
    CacheFiles.add ord file CacheFiles.fresh =
      ((readTags file.text).mapM fun e => Word.new e.1 e.2).map fun words =>
        (decide (0 < (readLines file.text).length), ⟨some (decimal file.length),
          (batchesFrom [] words).foldl (writeBatch ord) fun _ => none⟩) := by
  have hrun := foldlM_addWord ord (readTags file.text) [] fun _ => none
  have hne : ¬ (none : Option Str) = some (decimal file.length) := by simp
  rw [CacheFiles.add, CacheFiles.fresh]
  simp only [if_neg hne]
  change ((readTags file.text).foldlM (DiskTagCachedReader.addWord ord)
    ⟨0, [], fun _ => none⟩).map _ = _ at hrun
  cases hr : (readTags file.text).foldlM (DiskTagCachedReader.addWord ord)
      ⟨0, [], fun _ => none⟩ with
  | none =>
      rw [hr] at hrun
      rw [Option.map_eq_none_iff.mp hrun.symm]
      rfl
  | some r =>
      rw [hr] at hrun
      obtain ⟨words, hwords, hfiles⟩ := Option.map_eq_some_iff.mp hrun.symm
      rw [hwords]
      simp only [Option.bind_eq_bind, Option.bind_some, Option.pure_def, Option.map_some, hfiles]

/-- The answer for a word is the one from the first batch that has one. -/
theorem get_written {ord : WriteOrder} {size : Option Str} {words : List Word} {word : Str}
    (hword : isRejected word = false) (hwords : ∀ w ∈ words, Readable w.entry) :
    CacheFiles.get ⟨size, (batchesFrom [] words).foldl (writeBatch ord) fun _ => none⟩ word =
      some ((batchesFrom [] words).findSome? (answer ord word)) := by
  have hsearch : word ++ ['|'] ≠ [] := by simp
  have hempty : (readLines []).findSome? (searchLine (word ++ ['|'])) = none :=
    @findSome?_lines _ hsearch [] (by simp)
  have hbind : ∀ file : Option Str,
      (file.bind fun text => (readLines text).findSome? (searchLine (word ++ ['|']))) =
        (readLines (file.getD [])).findSome? (searchLine (word ++ ['|'])) := by
    intro file
    cases file with
    | none => exact hempty.symm
    | some text => rfl
  have hread : ∀ w ∈ (batchesFrom [] words).flatMap
      (dirWords ord (getKey (word.flatMap utf16))), Readable w.entry := by
    intro w hw
    obtain ⟨batch, hbatch, hw⟩ := List.mem_flatMap.mp hw
    rcases mem_batchesFrom hbatch (mem_dirWords.mp hw).1 with h | h
    · cases h
    · exact hwords w h
  rw [CacheFiles.get, if_neg (by simp [hword]), hbind, foldl_writeBatch, Option.getD_none,
    List.nil_append, findSome?_lines hsearch hread, findSome?_flatMap]
  congr 2
  funext batch
  rw [answer]
  refine findSome?_congr fun w hw => ?_
  exact (if_pos (mem_dirWords.mp hw).2).symm

/-! ## The four stores -/

/-- All stores give the same tags for the word, in any order of iteration. The cached one is new. -/
def StoresAgree (file : PosFile) (word : Str) : Prop :=
  ∀ ord, ∃ result cache, CacheFiles.add ord file CacheFiles.fresh = some (result, cache) ∧
    cache.get word = some ((MemoryTagList.add [] file.text).get word) ∧
    diskTagReaderGet file.text word = (MemoryTagList.add [] file.text).get word ∧
    (MemoryTagMap.add [] file.text).get word = (MemoryTagList.add [] file.text).get word

/-- Nothing is rejected, the first and the last entry of the word have the same tags, no other entry
begins with the word, and the lines of tags in the directory of the word hold its tags. -/
structure Consistent (file : PosFile) (word : Str) : Prop where
  accepted : ∀ e ∈ readTags file.text, isRejected e.1 = false
  requested : isRejected word = false
  repeated : (tagsOfWord file.text word).getLast? = (tagsOfWord file.text word).head?
  delimited : Delimited file.text word
  found : firstFound word (batchesFrom [] (readTags file.text)) = [] →
    tagsOfWord file.text word = []
  same : ∀ tags ∈ firstFound word (batchesFrom [] (readTags file.text)),
    (tagsOfWord file.text word).head? = some tags

theorem stores_agree (file : PosFile) (word : Str) :
    StoresAgree file word ↔ Consistent file word := by
  have hbatches : ∀ {words}, (readTags file.text).mapM (fun e => Word.new e.1 e.2) = some words →
      (batchesFrom [] words).map (List.map Word.entry) = batchesFrom [] (readTags file.text) := by
    intro words hwords
    rw [← batchesFrom_map, map_entry hwords]
    rfl
  have hreadable : ∀ {words}, (readTags file.text).mapM (fun e => Word.new e.1 e.2) = some words →
      ∀ w ∈ words, Readable w.entry := by
    intro words hwords w hw
    exact readable_of_mem (mem_words hwords hw)
  constructor
  · intro h
    obtain ⟨_, _, hadd, hget, hdisk, hmap⟩ := h (WriteOrder.mk id id (fun _ => .rfl) fun _ => .rfl)
    rw [memoryTagList_get] at hget hdisk hmap
    rw [memoryTagMap_get] at hmap
    obtain ⟨words, hwords, -⟩ := Option.map_eq_some_iff.mp ((add_fresh _ file).symm.trans hadd)
    have haccepted : ∀ e ∈ readTags file.text, isRejected e.1 = false := by
      intro e he
      by_contra hrejected
      have hnone := mapM_word_eq_none.mpr ⟨e, he, by simpa using hrejected⟩
      rw [hwords] at hnone
      cases hnone
    have hrequested : isRejected word = false := by
      by_contra hrejected
      rw [CacheFiles.get, if_pos (by simpa using hrejected)] at hget
      cases hget
    have hanswer : ∀ ord, (batchesFrom [] words).findSome? (answer ord word) =
        (tagsOfWord file.text word).head? := by
      intro ord
      obtain ⟨_, _, hadd, hget, -, -⟩ := h ord
      rw [add_fresh, hwords] at hadd
      cases hadd
      rw [get_written hrequested (hreadable hwords), memoryTagList_get] at hget
      exact Option.some.inj hget
    refine ⟨haccepted, hrequested, hmap, delimited_of_get hdisk, fun hnone => ?_, fun tags ht => ?_⟩
    · rw [← hbatches hwords] at hnone
      have hhead := hanswer (WriteOrder.mk id id (fun _ => .rfl) fun _ => .rfl)
      rw [findSome?_answer.1.mpr hnone] at hhead
      exact List.head?_eq_none_iff.mp hhead.symm
    · rw [← hbatches hwords] at ht
      obtain ⟨ord, hord⟩ := exists_findSome?_answer ht
      rw [← hanswer ord, hord]
  · rintro ⟨haccepted, hrequested, hrepeated, hdelimited, hfound, hsame⟩ ord
    cases hwords : (readTags file.text).mapM fun e => Word.new e.1 e.2 with
    | none =>
        obtain ⟨e, he, hrejected⟩ := mapM_word_eq_none.mp hwords
        rw [haccepted e he] at hrejected
        cases hrejected
    | some words =>
        refine ⟨_, _, by rw [add_fresh, hwords]; rfl, ?_, ?_, ?_⟩
        · rw [get_written hrequested (hreadable hwords), memoryTagList_get]
          rw [← hbatches hwords] at hfound hsame
          cases hanswer : (batchesFrom [] words).findSome? (answer ord word) with
          | none =>
              rw [hfound (findSome?_answer.1.mp hanswer)]
              rfl
          | some tags => rw [hsame tags (findSome?_answer.2 tags hanswer)]
        · rw [memoryTagList_get]
          exact diskTagReader_get hdelimited
        · rw [memoryTagMap_get, memoryTagList_get, hrepeated]

/-- A file with one noun. -/
def nounFile : PosFile := ⟨"katze|n|f\n".toList, 10⟩

/-- The cached reader looks for the noun in the line of its tags. -/
theorem stores_disagree : ¬ ∀ file word, StoresAgree file word := by
  intro h
  obtain ⟨result, cache, hadd, hget, -, -⟩ :=
    h nounFile "katze".toList ⟨id, id, fun _ => .rfl, fun _ => .rfl⟩
  have hcached : (CacheFiles.add ⟨id, id, fun _ => .rfl, fun _ => .rfl⟩ nounFile
      CacheFiles.fresh).bind (·.2.get "katze".toList) = some none := by decide +kernel
  rw [hadd, Option.bind_some, hget] at hcached
  revert hcached
  decide +kernel

end Freehal.Pos
