import Freehal.Index.Freshness
import Freehal.Pos.Entries
import Mathlib.Data.List.Perm.Basic

/-!
# What the stores hold of a file

The containers in the memory hold what the lines of the file say. The cached reader writes the same
words in batches, and its files are those of the batches one after another.
-/

namespace Freehal.Pos

open Index (readLines readLinesFrom)
open Lib (HashMap)

/-! ## The stores of whole files -/

/-- The tags that a file has for a word, line by line. -/
def tagsOfWord (text word : Str) : List Tags := ((readTags text).filter (·.1 = word)).map (·.2)

theorem memoryTagList_get (text word : Str) :
    (MemoryTagList.add [] text).get word = (tagsOfWord text word).head? := by
  rw [tagsOfWord, List.head?_map, List.head?_filter]
  rfl

/-- The last entry of a word stays in the map. -/
theorem get_putAll (m entries : List (Str × Tags)) (word : Str) :
    HashMap.get (HashMap.putAll m entries) word =
      (((entries.filter (·.1 = word)).map (·.2)).getLast?).or (HashMap.get m word) := by
  induction entries generalizing m with
  | nil => rfl
  | cons e entries ih =>
      have hstep : HashMap.putAll m (e :: entries) =
          HashMap.putAll (HashMap.put m e.1 e.2) entries := rfl
      rw [hstep, ih, HashMap.get_put]
      by_cases he : e.1 = word
      · rw [if_pos he.symm, List.filter_cons_of_pos (by simpa using he), List.map_cons,
          List.getLast?_cons]
        cases ((entries.filter (·.1 = word)).map (·.2)).getLast? <;> rfl
      · rw [if_neg (Ne.symm he), List.filter_cons_of_neg (by simpa using he)]

theorem memoryTagMap_get (text word : Str) :
    (MemoryTagMap.add [] text).get word = (tagsOfWord text word).getLast? := by
  have h := get_putAll [] (readTags text) word
  rw [show HashMap.get ([] : List (Str × Tags)) word = none from rfl, Option.or_none] at h
  exact h

/-- Every entry that begins with the word and a separator is an entry of the word. -/
def Delimited (text word : Str) : Prop :=
  ∀ line ∈ readLines text, word ++ ['|'] <+: trimRight line →
    ∀ e, entryOf line = some e → e.1 = word

theorem findSome?_searchLine {lines : List Str} {word : Str}
    (h : ∀ line ∈ lines, word ++ ['|'] <+: trimRight line →
      ∀ e, entryOf line = some e → e.1 = word) :
    lines.findSome? (searchLine (word ++ ['|'])) =
      (((lines.filterMap entryOf).filter (·.1 = word)).map (·.2)).head? := by
  induction lines with
  | nil => rfl
  | cons line lines ih =>
      have hrest := ih fun l hl => h l (List.mem_cons_of_mem _ hl)
      have hline := h line List.mem_cons_self
      rw [List.findSome?_cons]
      cases hsearch : searchLine (word ++ ['|']) line with
      | some tags =>
          obtain ⟨hbegins, htags⟩ := searchLine_eq_some.mp hsearch
          obtain ⟨first, hentry⟩ := entryOf_of_tagsOf htags
          obtain rfl : first = word := hline hbegins _ hentry
          simp [hentry]
      | none =>
          rw [hrest]
          cases hentry : entryOf line with
          | none => rw [List.filterMap_cons_none hentry]
          | some e =>
              have hne : ¬ e.1 = word := by
                rintro rfl
                obtain ⟨-, -, rest, htext⟩ := entryOf_isPrefix hentry
                have hbegins : e.1 ++ ['|'] <+: trimRight line :=
                  ⟨rest, by rw [htext, List.append_assoc]; rfl⟩
                have hfound := searchLine_eq_some.mpr ⟨hbegins, tagsOf_of_entryOf hentry⟩
                rw [hsearch] at hfound
                cases hfound
              rw [List.filterMap_cons_some hentry, List.filter_cons_of_neg (by simpa using hne)]

theorem diskTagReader_get {text word : Str} (h : Delimited text word) :
    diskTagReaderGet text word = (tagsOfWord text word).head? := findSome?_searchLine h

/-- Where an entry begins with the word and a separator without being one of the word, the word has
no entries, and the reader finds tags. -/
theorem delimited_of_get {text word : Str}
    (h : diskTagReaderGet text word = (tagsOfWord text word).head?) : Delimited text word := by
  intro line hline hbegins e hentry
  by_contra hne
  have hnone : tagsOfWord text word = [] := by
    rw [tagsOfWord, List.map_eq_nil_iff, List.filter_eq_nil_iff]
    intro d hd hword
    obtain ⟨other, -, hother⟩ := List.mem_filterMap.mp hd
    rw [decide_eq_true_eq] at hword
    subst hword
    exact hne (entryOf_word hother hentry hbegins)
  rw [hnone] at h
  have hfound := searchLine_eq_some.mpr ⟨hbegins, tagsOf_of_entryOf hentry⟩
  have hnot := List.findSome?_eq_none_iff.mp h line hline
  rw [hfound] at hnot
  cases hnot

/-! ## The lines of the cache -/

theorem plain_of_mem_readLinesFrom {skipLF : Bool} {acc text line : Str} (hacc : Index.Plain acc)
    (h : line ∈ readLinesFrom skipLF acc text) : Index.Plain line := by
  have hnil : Index.Plain [] := ⟨by simp, by simp⟩
  induction text generalizing skipLF acc with
  | nil =>
      rw [readLinesFrom] at h
      split at h
      · rw [List.mem_singleton.mp h]
        exact hnil
      · rcases List.mem_cons.mp h with rfl | h
        · exact hacc
        · rw [List.mem_singleton.mp h]
          exact hnil
  | cons c text ih =>
      rw [readLinesFrom] at h
      split at h
      · split at h
        · exact ih hnil h
        · rcases List.mem_cons.mp h with rfl | h
          · exact hacc
          · exact ih hnil h
      · split at h
        · rcases List.mem_cons.mp h with rfl | h
          · exact hacc
          · exact ih hnil h
        · rename_i hn hr
          refine ih ⟨fun hm => ?_, fun hm => ?_⟩ h
          · rcases List.mem_append.mp hm with hm | hm
            · exact hacc.1 hm
            · exact hn (List.mem_singleton.mp hm).symm
          · rcases List.mem_append.mp hm with hm | hm
            · exact hacc.2 hm
            · exact hr (List.mem_singleton.mp hm).symm

theorem mem_of_mem_trimRight {line : Str} {c : Char} (h : c ∈ trimRight line) : c ∈ line := by
  have hdrop : ∀ {l : Str}, c ∈ l.rdropWhile isSpace → c ∈ l :=
    fun hc => (List.rdropWhile_prefix _ _).subset hc
  unfold trimRight at h
  split at h
  · cases h
  · rename_i d hd
    split at h
    · rcases List.mem_append.mp h with h | h
      · exact List.dropLast_subset _ (hdrop h)
      · rw [List.mem_singleton.mp h]
        exact List.mem_of_getLast? hd
    · exact hdrop h

/-- The word and its tags consist of parts of the line. -/
theorem mem_line_of_entryOf {line : Str} {e : Str × Tags} (h : entryOf line = some e) {c : Char}
    (hc : c ∈ e.1 ∨ c ∈ e.2.toTagsFormat) : c = '|' ∨ c ∈ line := by
  have hpart : ∀ part ∈ splitEscaped (trimRight line) '|', c ∈ part → c ∈ line := fun part hp hcp =>
    mem_of_mem_trimRight (mem_of_mem_partsFrom ((splitEscaped_isPrefix _ _).subset hp) hcp)
  unfold entryOf at h
  generalize splitEscaped (trimRight line) '|' = parts at h hpart
  match parts with
  | [] => simp [tagsOf] at h
  | [_] => simp [tagsOf] at h
  | [word, category] =>
      simp only [tagsOf, List.head?_cons, Option.bind_eq_bind, Option.bind_some, Option.pure_def,
        Option.some.injEq] at h
      subst h
      rcases hc with hc | hc
      · exact Or.inr (hpart word (by simp) hc)
      · exact Or.inr (hpart category (by simp) (by simpa [Tags.toTagsFormat] using hc))
  | [word, category, gender] =>
      simp only [tagsOf, List.head?_cons, Option.bind_eq_bind, Option.bind_some, Option.pure_def,
        Option.some.injEq] at h
      subst h
      rcases hc with hc | hc
      · exact Or.inr (hpart word (by simp) hc)
      · rcases List.mem_append.mp hc with hc | hc
        · exact Or.inr (hpart category (by simp) hc)
        · rcases List.mem_cons.mp hc with rfl | hc
          · exact Or.inl rfl
          · exact Or.inr (hpart gender (by simp) hc)
  | _ :: _ :: _ :: _ :: _ => simp [tagsOf] at h

/-- What is true of the words and tags of a file. -/
structure Readable (e : Str × Tags) : Prop where
  word : Index.Plain e.1
  tags : Index.Plain e.2.toTagsFormat
  part : partsFrom '|' false e.1 = [e.1]

theorem readable_of_mem {text : Str} {e : Str × Tags} (h : e ∈ readTags text) : Readable e := by
  obtain ⟨line, hline, hentry⟩ := List.mem_filterMap.mp h
  obtain ⟨hn, hr⟩ := plain_of_mem_readLinesFrom ⟨by simp, by simp⟩ hline
  have hchars : ∀ c, ¬ c = '|' → c ∉ line → c ∉ e.1 ∧ c ∉ e.2.toTagsFormat := by
    intro c hc hnot
    refine ⟨fun hm => ?_, fun hm => ?_⟩
    · rcases mem_line_of_entryOf hentry (Or.inl hm) with h | h
      · exact hc h
      · exact hnot h
    · rcases mem_line_of_entryOf hentry (Or.inr hm) with h | h
      · exact hc h
      · exact hnot h
  obtain ⟨hn1, hn2⟩ := hchars '\n' (by decide) hn
  obtain ⟨hr1, hr2⟩ := hchars '\r' (by decide) hr
  exact ⟨⟨hn1, hr1⟩, ⟨hn2, hr2⟩, (entryOf_isPrefix hentry).1⟩

/-- The line of a word is never an entry. -/
theorem searchLine_wordLine {e : Str × Tags} (h : Readable e) (search : Str) :
    searchLine search (e.1 ++ [':']) = none := by
  have htrim : trimRight (e.1 ++ [':']) = e.1 ++ [':'] := by
    rw [trimRight, List.getLast?_concat]
    simp only
    rw [if_neg (by decide), List.rdropWhile_concat_neg _ _ _ (by decide)]
  have hparts : partsFrom '|' false (e.1 ++ [':']) = [e.1 ++ [':']] := by
    refine partsFrom_append h.part ?_
    simp [partsFrom]
  rw [searchLine, htrim]
  split
  · rw [splitEscaped, hparts]
    rfl
  · rfl

theorem findSome?_lines {search : Str} (hsearch : search ≠ []) {words : List Word}
    (h : ∀ word ∈ words, Readable (word.word, word.tag)) :
    (readLines (writeTagsTo words)).findSome? (searchLine search) =
      words.findSome? fun word => searchLine search word.tag.toTagsFormat := by
  induction words with
  | nil =>
      have hnone : searchLine search [] = none := by
        cases search with
        | nil => exact absurd rfl hsearch
        | cons c search => rfl
      simpa [writeTagsTo, readLines, readLinesFrom] using hnone
  | cons word words ih =>
      have hword := h word List.mem_cons_self
      have htext : writeTagsTo (word :: words) = (word.word ++ [':']) ++ '\n' ::
          (word.tag.toTagsFormat ++ '\n' :: writeTagsTo words) := by
        simp [writeTagsTo, Word.lines]
      have hplain : Index.Plain (word.word ++ [':']) := by
        refine ⟨fun hm => ?_, fun hm => ?_⟩
        · exact hword.word.1 (by simpa using hm)
        · exact hword.word.2 (by simpa using hm)
      have hlines : readLines (writeTagsTo (word :: words)) = (word.word ++ [':']) ::
          word.tag.toTagsFormat :: readLines (writeTagsTo words) := by
        rw [htext]
        exact (Index.readLinesFrom_line hplain _).trans
          (congrArg _ (Index.readLinesFrom_line hword.tags _))
      rw [hlines, List.findSome?_cons, searchLine_wordLine hword, List.findSome?_cons,
        List.findSome?_cons, ih fun w hw => h w (List.mem_cons_of_mem _ hw)]

/-! ## Batches -/

/-- The words that are written together. The cache is written when it holds too many of them, and
at the end. -/
def batchesFrom {α : Type} : List α → List α → List (List α)
  | batch, [] => if batch = [] then [] else [batch]
  | batch, x :: xs =>
      if maxCacheSize < batch.length + 1 then (batch ++ [x]) :: batchesFrom [] xs
      else batchesFrom (batch ++ [x]) xs

theorem batchesFrom_map {α β : Type} (f : α → β) (batch xs : List α) :
    batchesFrom (batch.map f) (xs.map f) = (batchesFrom batch xs).map (List.map f) := by
  induction xs generalizing batch with
  | nil =>
      cases batch with
      | nil => rfl
      | cons x batch => rfl
  | cons x xs ih =>
      simp only [List.map_cons, batchesFrom, List.length_map]
      have hsnoc : batch.map f ++ [f x] = (batch ++ [x]).map f := by simp
      split
      · rw [hsnoc, List.map_cons]
        exact congrArg _ (ih [])
      · rw [hsnoc]
        exact ih _

theorem mem_batchesFrom {α : Type} {batch xs b : List α} {x : α} (hb : b ∈ batchesFrom batch xs)
    (hx : x ∈ b) : x ∈ batch ∨ x ∈ xs := by
  induction xs generalizing batch with
  | nil =>
      rw [batchesFrom] at hb
      split at hb
      · cases hb
      · rw [List.mem_singleton.mp hb] at hx
        exact Or.inl hx
  | cons y xs ih =>
      have hsnoc : x ∈ batch ++ [y] → x ∈ batch ∨ x ∈ y :: xs := by
        intro h
        rcases List.mem_append.mp h with h | h
        · exact Or.inl h
        · exact Or.inr (List.mem_singleton.mp h ▸ List.mem_cons_self)
      rw [batchesFrom] at hb
      split at hb
      · rcases List.mem_cons.mp hb with rfl | hb
        · exact hsnoc hx
        · rcases ih hb with h | h
          · cases h
          · exact Or.inr (List.mem_cons_of_mem _ h)
      · rcases ih hb with h | h
        · exact hsnoc h
        · exact Or.inr (List.mem_cons_of_mem _ h)

/-- The cache that holds a batch. -/
def cacheOf (batch : List Word) : Cache := batch.foldl Cache.put []

theorem cacheOf_concat (batch : List Word) (word : Word) :
    cacheOf (batch ++ [word]) = (cacheOf batch).put word := by simp [cacheOf]

theorem cacheOf_unique (batch : List Word) : (cacheOf batch).Unique := by
  induction batch using List.reverseRecOn with
  | nil => exact HashMap.Unique.nil
  | append_singleton batch word ih =>
      rw [cacheOf_concat]
      exact ih.put _ _

theorem cacheOf_eq_nil {batch : List Word} : cacheOf batch = [] ↔ batch = [] := by
  refine ⟨fun h => ?_, fun h => by rw [h]; rfl⟩
  rcases List.eq_nil_or_concat batch with rfl | ⟨rest, word, rfl⟩
  · rfl
  · rw [List.concat_eq_append, cacheOf_concat, Cache.put] at h
    have := HashMap.mem_put_self (cacheOf rest) word.substring
      ((HashMap.get (cacheOf rest) word.substring).getD [] ++ [word])
    rw [h] at this
    cases this

/-- A key has the words that begin with it, and it is only there for them. -/
theorem get_cacheOf (batch : List Word) (key : List Nat) : HashMap.get (cacheOf batch) key =
    if batch.filter (·.substring = key) = [] then none
    else some (batch.filter (·.substring = key)) := by
  induction batch using List.reverseRecOn with
  | nil => rfl
  | append_singleton batch word ih =>
      rw [cacheOf_concat, Cache.put, HashMap.get_put]
      by_cases hkey : word.substring = key
      · have hget : (HashMap.get (cacheOf batch) key).getD [] =
            batch.filter (·.substring = key) := by
          rw [ih]
          split
          · rename_i h
            exact h.symm
          · rfl
        rw [if_pos hkey.symm, hkey, hget]
        simp [List.filter_append, hkey]
      · rw [if_neg (Ne.symm hkey), ih]
        simp [List.filter_append, hkey]

theorem mem_cacheOf {batch : List Word} {e : List Nat × List Word} :
    e ∈ cacheOf batch ↔ e.2 = batch.filter (·.substring = e.1) ∧ e.2 ≠ [] := by
  have hget := get_cacheOf batch e.1
  constructor
  · intro h
    rw [(cacheOf_unique batch).get (v := e.2) h] at hget
    split at hget
    · cases hget
    · rename_i hne
      have heq := Option.some.inj hget
      exact ⟨heq, fun h => hne (heq ▸ h)⟩
  · rintro ⟨heq, hne⟩
    rw [← heq, if_neg hne] at hget
    exact HashMap.mem_of_get hget

/-! ## The files after a run -/

/-- The words that a batch adds to a directory. -/
def dirWords (ord : WriteOrder) (dir : Str) (batch : List Word) : List Word :=
  (ord.keySet (cacheOf batch)).flatMap fun e => if getKey e.1 = dir then ord.words e.2 else []

theorem writeTagsTo_append (words more : List Word) :
    writeTagsTo (words ++ more) = writeTagsTo words ++ writeTagsTo more := List.flatMap_append

theorem foldl_appendTo (ord : WriteOrder) (cache : Cache) (files : TagFiles) (dir : Str) :
    ((cache.foldl (fun files e => appendTo files (getKey e.1) (writeTagsTo (ord.words e.2))) files)
        dir).getD [] = (files dir).getD [] ++
      writeTagsTo (cache.flatMap fun e => if getKey e.1 = dir then ord.words e.2 else []) := by
  induction cache generalizing files with
  | nil => simp [writeTagsTo]
  | cons e cache ih =>
      rw [List.foldl_cons, ih, List.flatMap_cons, writeTagsTo_append, ← List.append_assoc]
      congr 1
      by_cases h : getKey e.1 = dir
      · simp [appendTo, h]
      · have hne : ¬ dir = getKey e.1 := fun he => h he.symm
        simp [appendTo, h, hne, writeTagsTo]

def writeBatch (ord : WriteOrder) (files : TagFiles) (batch : List Word) : TagFiles :=
  writeKeys ord files (cacheOf batch)

theorem foldl_writeBatch (ord : WriteOrder) (batches : List (List Word)) (files : TagFiles)
    (dir : Str) : ((batches.foldl (writeBatch ord) files) dir).getD [] =
      (files dir).getD [] ++ writeTagsTo (batches.flatMap (dirWords ord dir)) := by
  induction batches generalizing files with
  | nil => simp [writeTagsTo]
  | cons batch batches ih =>
      have hbatch := foldl_appendTo ord (ord.keySet (cacheOf batch)) files dir
      rw [List.foldl_cons, ih, writeBatch, writeKeys, hbatch, List.flatMap_cons,
        writeTagsTo_append, List.append_assoc]
      rfl

/-- The words that follow a batch in the cache are written batch by batch. -/
theorem foldlM_addWord (ord : WriteOrder) (entries : List (Str × Tags)) (batch : List Word)
    (files : TagFiles) :
    ((entries.foldlM (DiskTagCachedReader.addWord ord)
        ⟨batch.length, cacheOf batch, files⟩).map fun r =>
          (if 0 < r.cache.length then r.writeCache ord else r).files) =
      (entries.mapM fun e => Word.new e.1 e.2).map fun words =>
        (batchesFrom batch words).foldl (writeBatch ord) files := by
  induction entries generalizing batch files with
  | nil =>
      simp only [List.foldlM_nil, List.mapM_nil, Option.pure_def, Option.map_some, batchesFrom]
      by_cases hbatch : batch = []
      · subst hbatch
        rfl
      · have hpos : 0 < (cacheOf batch).length :=
          List.length_pos_iff.mpr fun h => hbatch (cacheOf_eq_nil.mp h)
        rw [if_pos hpos, if_neg hbatch]
        rfl
  | cons e entries ih =>
      rw [List.foldlM_cons, List.mapM_cons, DiskTagCachedReader.addWord]
      cases Word.new e.1 e.2 with
      | none => rfl
      | some word =>
          have hcache : (cacheOf batch).put word = cacheOf (batch ++ [word]) :=
            (cacheOf_concat batch word).symm
          simp only [Option.map_some, Option.bind_eq_bind, Option.bind_some, Option.pure_def]
          by_cases hfull : maxCacheSize < batch.length + 1
          · have hnext := ih [] (writeBatch ord files (batch ++ [word]))
            rw [if_pos hfull, DiskTagCachedReader.writeCache, hcache]
            refine hnext.trans ?_
            cases entries.mapM fun e => Word.new e.1 e.2 with
            | none => rfl
            | some words => simp [batchesFrom, hfull]
          · have hnext := ih (batch ++ [word]) files
            rw [if_neg hfull, hcache]
            rw [List.length_append, List.length_singleton] at hnext
            refine hnext.trans ?_
            cases entries.mapM fun e => Word.new e.1 e.2 with
            | none => rfl
            | some words => simp [batchesFrom, hfull]

end Freehal.Pos
