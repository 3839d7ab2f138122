import Freehal.Grammar2012.Lemmas.Reader
import Freehal.Lib.Fold
import Freehal.Lib.HashMap

/-!
# Files of tags

`write_to_file` and `read_pos_file` of `hal2012-tagger2012.cpp`.
-/

namespace Freehal.Grammar2012

open Lib (HashMap foldl_induction)

/-! ## Writing and reading -/

structure Tagger where
  type : HashMap Str Str
  genus : HashMap Str Str

def Tagger.empty : Tagger := ⟨[], []⟩

/-- A word without a type has the empty one. -/
def Tagger.typeOf (t : Tagger) (word : Str) : Str := (t.type.get word).getD []

def Tagger.genusOf (t : Tagger) (word : Str) : Str := (t.genus.get word).getD []

/-- What `write_to_file` appends. -/
def writeToFile (t : Tagger) (word : Str) : Str :=
  word ++ ":\n".toList ++
    (if t.typeOf word ≠ [] then "  type: ".toList ++ t.typeOf word ++ ['\n'] else []) ++
      (if t.genusOf word ≠ [] then "  genus: ".toList ++ t.genusOf word ++ ['\n'] else [])

def uniquePosType (type : Str) : Str :=
  if type = "komma".toList then "komma".toList
  else if type = "vi".toList ∨ type = "vt".toList ∨ type = "ci".toList then "v".toList
  else if "a".toList.isPrefixOf type = true ∧ type ≠ "art".toList then "adj".toList
  else if type = "n".toList ∨ type = "f".toList ∨ type = "m".toList ∨
      "n,".toList.isPrefixOf type = true ∨ type = "pron".toList ∨ type = "b".toList then "n".toList
  else if type = "fw".toList ∨ "ques".toList.isPrefixOf type = true then "questionword".toList
  else type

def trimIf (p : Char → Bool) (str : Str) : Str := (str.dropWhile p).rdropWhile p

/-- `is_any_of(":") || is_space()` -/
def isColon (c : Char) : Bool := c = ':' || isTrimmed c

/-- `is_any_of(":,;") || is_space()` -/
def isMark (c : Char) : Bool := c = ',' || c = ';' || isColon c

/-- `boost::unordered_map::insert` leaves an entry as it is. -/
def insert (m : HashMap Str Str) (key value : Str) : HashMap Str Str :=
  if (m.get key).isSome then m else m.put key value

/-- What stands behind the name of a field. -/
def valueBehind (n : Nat) (line : Str) : Str := (line.drop n).dropWhile isColon

/-- A line of a field, without the marks around it. -/
def readField (word : Str) (t : Tagger) (line : Str) : Tagger :=
  if "type".toList.isPrefixOf line then
    { t with type := insert t.type word (uniquePosType (valueBehind 4 line)) }
  else if "genus".toList.isPrefixOf line then
    { t with genus := insert t.genus word (valueBehind 5 line) }
  else t

/-- The current word and the tagger after a line. -/
def readLine (state : Str × Tagger) (line : Str) : Str × Tagger :=
  let line := line.rdropWhile isTrimmed
  if [':'].isSuffixOf line then (trimIf isColon line, state.2)
  else if [' '].isPrefixOf line then (state.1, readField state.1 state.2 (trimIf isMark line))
  else state

def readPosFile (t : Tagger) (text : Str) : Tagger := ((splitLines text).foldl readLine ([], t)).2

/-! ## What is read -/

/-- What the reader leaves of a line: no marks at the end and no colons at the beginning. -/
structure IsValue (value : Str) : Prop where
  newline : '\n' ∉ value
  head : ∀ c ∈ value.head?, isColon c = false
  last : ∀ c ∈ value.getLast?, isMark c = false

/-- The types that others are changed to. -/
def uniqueTypes : List Str := ["komma", "v", "adj", "n", "questionword"].map String.toList

theorem uniquePosType_cases (type : Str) :
    uniquePosType type = type ∨ uniquePosType type ∈ uniqueTypes := by
  unfold uniquePosType
  repeat' split
  all_goals first | exact Or.inl rfl | exact Or.inr (by decide)

/-- Whether the text is in one line, with other characters at its ends. -/
def isLine (head last : Char → Bool) (text : Str) : Bool :=
  !text.contains '\n' && text.head?.all (!head ·) && text.getLast?.all (!last ·)

theorem isLine_iff {head last : Char → Bool} {text : Str} : isLine head last text = true ↔
    '\n' ∉ text ∧ (∀ c ∈ text.head?, head c = false) ∧ ∀ c ∈ text.getLast?, last c = false := by
  simp [isLine, Option.all_eq_true, and_assoc]

theorem isValue_uniquePosType {value : Str} (h : IsValue value) : IsValue (uniquePosType value) := by
  have hunique : ∀ type ∈ uniqueTypes, isLine isColon isMark type = true := by decide
  rcases uniquePosType_cases value with hsame | hmem
  · exact hsame.symm ▸ h
  · obtain ⟨hnewline, hhead, hlast⟩ := isLine_iff.mp (hunique _ hmem)
    exact ⟨hnewline, hhead, hlast⟩

theorem uniquePosType_idem (type : Str) :
    uniquePosType (uniquePosType type) = uniquePosType type := by
  have hunique : ∀ type ∈ uniqueTypes, uniquePosType type = type := by decide
  rcases uniquePosType_cases type with hsame | hmem
  · rw [hsame, hsame]
  · exact hunique _ hmem

theorem isValue_valueBehind {line : Str} (h : '\n' ∉ line) (n : Nat) :
    IsValue (valueBehind n (trimIf isMark line)) := by
  have hsuffix : valueBehind n (trimIf isMark line) <:+ trimIf isMark line :=
    (List.dropWhile_suffix _).trans (List.drop_suffix _ _)
  have hsublist : (trimIf isMark line).Sublist line :=
    (List.rdropWhile_prefix _ _).sublist.trans (List.dropWhile_sublist _)
  refine ⟨fun hmem => h (hsublist.subset (hsuffix.subset hmem)), fun c hc => ?_, fun c hc => ?_⟩
  · have hnot := List.head?_dropWhile_not isColon ((trimIf isMark line).drop n)
    rw [valueBehind] at hc
    rw [Option.mem_def.mp hc] at hnot
    exact hnot
  · have hne : valueBehind n (trimIf isMark line) ≠ [] := by
      rintro heq
      rw [heq] at hc
      cases hc
    have hne' : trimIf isMark line ≠ [] := fun heq => hne (List.suffix_nil.mp (heq ▸ hsuffix))
    have hlast := List.rdropWhile_last_not isMark (line.dropWhile isMark) hne'
    rw [Option.mem_def, List.getLast?_eq_some_getLast hne, Option.some.injEq] at hc
    rw [← hc, hsuffix.getLast hne]
    exact eq_false_of_ne_true hlast

/-- The values of a tagger are as the reader leaves them. -/
structure Tagger.IsNormal (t : Tagger) : Prop where
  type : ∀ word value, t.type.get word = some value →
    IsValue value ∧ uniquePosType value = value
  genus : ∀ word value, t.genus.get word = some value → IsValue value

theorem insert_get (m : HashMap Str Str) (key value word : Str) :
    (insert m key value).get word =
      if word = key then some ((m.get key).getD value) else m.get word := by
  unfold insert
  cases hkey : m.get key with
  | none =>
      rw [if_neg (by simp), HashMap.get_put]
      rfl
  | some old =>
      rw [if_pos (by simp)]
      by_cases hword : word = key
      · rw [if_pos hword, hword, hkey, Option.getD_some]
      · rw [if_neg hword]

theorem insert_all {P : Str → Prop} {m : HashMap Str Str} {key value : Str}
    (hm : ∀ word v, m.get word = some v → P v) (hvalue : P value) (word v : Str)
    (h : (insert m key value).get word = some v) : P v := by
  rw [insert_get] at h
  split at h
  · cases hkey : m.get key with
    | none =>
        rw [hkey] at h
        cases h
        exact hvalue
    | some old =>
        rw [hkey] at h
        cases h
        exact hm key old hkey
  · exact hm word v h

theorem isNormal_readLine {state : Str × Tagger} (h : state.2.IsNormal) {line : Str}
    (hline : '\n' ∉ line) : (readLine state line).2.IsNormal := by
  have hright : '\n' ∉ line.rdropWhile isTrimmed := fun hmem =>
    hline ((List.rdropWhile_prefix _ _).subset hmem)
  have hvalue := fun n => isValue_valueBehind hright n
  unfold readLine
  dsimp only
  split
  · exact h
  · split
    · unfold readField
      split
      · exact ⟨insert_all h.type ⟨isValue_uniquePosType (hvalue 4), uniquePosType_idem _⟩, h.genus⟩
      · split
        · exact ⟨h.type, insert_all h.genus (hvalue 5)⟩
        · exact h
    · exact h

theorem not_mem_splitLines {text line : Str} (h : line ∈ splitLines text) : '\n' ∉ line := by
  induction text generalizing line with
  | nil => cases h
  | cons c text ih =>
      rw [splitLines] at h
      split at h
      · rcases List.mem_cons.mp h with rfl | h
        · exact List.not_mem_nil
        · exact ih h
      · rename_i hc
        split at h
        · cases List.mem_singleton.mp h
          simpa using Ne.symm hc
        · rename_i first lines hlines
          rcases List.mem_cons.mp h with rfl | h
          · have hfirst := @ih first (by rw [hlines]; exact List.mem_cons_self)
            simp [hfirst, Ne.symm hc]
          · exact ih (by rw [hlines]; exact List.mem_cons_of_mem _ h)

theorem Tagger.empty_isNormal : Tagger.empty.IsNormal := ⟨nofun, nofun⟩

/-- What is read is normal. -/
theorem isNormal_readPosFile {t : Tagger} (h : t.IsNormal) (text : Str) :
    (readPosFile t text).IsNormal :=
  foldl_induction (P := fun state : Str × Tagger => state.2.IsNormal) h
    fun _ _ hmem hstate => isNormal_readLine hstate (not_mem_splitLines hmem)

/-! ## Reading what was written -/

/-- A word that the reader finds again. -/
structure IsWord (word : Str) : Prop where
  newline : '\n' ∉ word
  head : ∀ c ∈ word.head?, isColon c = false
  last : ∀ c ∈ word.getLast?, isColon c = false

theorem rdropWhile_of_last {p : Char → Bool} {text : Str} (h : ∀ c ∈ text.getLast?, p c = false) :
    text.rdropWhile p = text := by
  refine List.rdropWhile_eq_self_iff.mpr fun hne => ?_
  rw [h _ (List.getLast?_eq_some_getLast hne)]
  exact Bool.false_ne_true

theorem dropWhile_of_head {p : Char → Bool} {text : Str} (h : ∀ c ∈ text.head?, p c = false) :
    text.dropWhile p = text := by
  cases text with
  | nil => rfl
  | cons c text => rw [List.dropWhile_cons, h c rfl, if_neg Bool.false_ne_true]

theorem readLine_word {word : Str} (h : IsWord word) (state : Str × Tagger) :
    readLine state (word ++ [':']) = (word, state.2) := by
  have hright : (word ++ [':']).rdropWhile isTrimmed = word ++ [':'] :=
    List.rdropWhile_concat_neg _ _ _ (by decide)
  have htrim : trimIf isColon (word ++ [':']) = word := by
    cases word with
    | nil => decide
    | cons c word =>
        have hhead : ∀ d ∈ (c :: word ++ [':']).head?, isColon d = false := h.head
        rw [trimIf, dropWhile_of_head hhead, List.rdropWhile_concat_pos _ _ _ (by decide),
          rdropWhile_of_last h.last]
  unfold readLine
  dsimp only
  rw [hright, if_pos (by simp), htrim]

theorem last_append {q : Char → Bool} {value : Str} (hne : value ≠ [])
    (h : ∀ c ∈ value.getLast?, q c = false) (text : Str) :
    ∀ c ∈ (text ++ value).getLast?, q c = false := by
  rw [List.getLast?_append_of_ne_nil _ hne]
  exact h

/-- The line of a field is no line of a word, and only the blanks in front of it are trimmed. -/
theorem readLine_field {value : Str} (h : IsValue value) (hne : value ≠ []) (name : Str)
    (hname : ∀ c ∈ (name ++ value).head?, isMark c = false) (word : Str) (t : Tagger) :
    readLine (word, t) (' ' :: ' ' :: name ++ value) = (word, readField word t (name ++ value)) := by
  have hmark : ∀ c, isMark c = false → isTrimmed c = false ∧ c ≠ ':' := by
    intro c hc
    simp only [isMark, isColon, Bool.or_eq_false_iff, decide_eq_false_iff_not] at hc
    exact ⟨hc.2.2, hc.2.1⟩
  have hright : (' ' :: ' ' :: name ++ value).rdropWhile isTrimmed = ' ' :: ' ' :: name ++ value :=
    rdropWhile_of_last (last_append hne (fun c hc => (hmark c (h.last c hc)).1) _)
  have hcolon : ¬ [':'].isSuffixOf (' ' :: ' ' :: name ++ value) = true := by
    intro hsuffix
    obtain ⟨text, htext⟩ := List.isSuffixOf_iff_suffix.mp hsuffix
    have hlast := last_append hne (fun c hc => h.last c hc) (' ' :: ' ' :: name) ':'
    rw [← htext] at hlast
    exact absurd (hlast (by simp)) (by decide)
  have htrim : trimIf isMark (' ' :: ' ' :: name ++ value) = name ++ value := by
    rw [trimIf, List.cons_append, List.cons_append, List.dropWhile_cons, if_pos (by decide),
      List.dropWhile_cons, if_pos (by decide), dropWhile_of_head hname]
    exact rdropWhile_of_last (last_append hne h.last name)
  unfold readLine
  dsimp only
  rw [hright, if_neg hcolon, htrim]
  exact if_pos rfl

theorem readLine_type {value : Str} (h : IsValue value) (hunique : uniquePosType value = value)
    (hne : value ≠ []) (word : Str) (t : Tagger) :
    readLine (word, t) ("  type: ".toList ++ value) =
      (word, { t with type := insert t.type word value }) := by
  have hvalue : valueBehind 4 ("type: ".toList ++ value) = value := dropWhile_of_head h.head
  have hname : "type".toList.isPrefixOf ("type: ".toList ++ value) = true := rfl
  refine (readLine_field h hne "type: ".toList (fun c hc => by cases hc; decide) word t).trans ?_
  rw [readField, if_pos hname, hvalue, hunique]

theorem readLine_genus {value : Str} (h : IsValue value) (hne : value ≠ []) (word : Str)
    (t : Tagger) :
    readLine (word, t) ("  genus: ".toList ++ value) =
      (word, { t with genus := insert t.genus word value }) := by
  have hvalue : valueBehind 5 ("genus: ".toList ++ value) = value := dropWhile_of_head h.head
  have htype : ¬ "type".toList.isPrefixOf ("genus: ".toList ++ value) = true :=
    Bool.false_ne_true
  have hname : "genus".toList.isPrefixOf ("genus: ".toList ++ value) = true := rfl
  refine (readLine_field h hne "genus: ".toList (fun c hc => by cases hc; decide) word t).trans ?_
  rw [readField, if_neg htype, if_pos hname, hvalue]

/-! ## Whole files -/

/-- A value is inserted unless it is empty. -/
def insertValue (m : HashMap Str Str) (word value : Str) : HashMap Str Str :=
  if value ≠ [] then insert m word value else m

/-- The lines of a word and its values. -/
def wordLines (t : Tagger) (word : Str) : List Str :=
  [word ++ [':']] ++ (if t.typeOf word ≠ [] then ["  type: ".toList ++ t.typeOf word] else []) ++
    (if t.genusOf word ≠ [] then ["  genus: ".toList ++ t.genusOf word] else [])

theorem Tagger.IsNormal.typeOf {t : Tagger} (h : t.IsNormal) {word : Str}
    (hne : t.typeOf word ≠ []) :
    IsValue (t.typeOf word) ∧ uniquePosType (t.typeOf word) = t.typeOf word := by
  unfold Tagger.typeOf at hne ⊢
  cases hget : t.type.get word with
  | none => simp [hget] at hne
  | some value => exact h.type word value hget

theorem Tagger.IsNormal.genusOf {t : Tagger} (h : t.IsNormal) {word : Str}
    (hne : t.genusOf word ≠ []) : IsValue (t.genusOf word) := by
  unfold Tagger.genusOf at hne ⊢
  cases hget : t.genus.get word with
  | none => simp [hget] at hne
  | some value => exact h.genus word value hget

theorem foldl_wordLines {t : Tagger} (h : t.IsNormal) {word : Str} (hword : IsWord word)
    (state : Str × Tagger) :
    (wordLines t word).foldl readLine state =
      (word, ⟨insertValue state.2.type word (t.typeOf word),
        insertValue state.2.genus word (t.genusOf word)⟩) := by
  rw [wordLines, List.foldl_append, List.foldl_append, List.foldl_cons, List.foldl_nil,
    readLine_word hword]
  have htype : (if t.typeOf word ≠ [] then ["  type: ".toList ++ t.typeOf word] else []).foldl
      readLine (word, state.2) =
        (word, ⟨insertValue state.2.type word (t.typeOf word), state.2.genus⟩) := by
    by_cases hne : t.typeOf word ≠ []
    · obtain ⟨hvalue, hunique⟩ := h.typeOf hne
      rw [if_pos hne, List.foldl_cons, List.foldl_nil, readLine_type hvalue hunique hne,
        insertValue, if_pos hne]
    · rw [if_neg hne, List.foldl_nil, insertValue, if_neg hne]
  rw [htype]
  by_cases hne : t.genusOf word ≠ []
  · rw [if_pos hne, List.foldl_cons, List.foldl_nil, readLine_genus (h.genusOf hne) hne,
      insertValue, insertValue, if_pos hne]
  · rw [if_neg hne, List.foldl_nil, insertValue, insertValue, if_neg hne]

theorem splitLines_lines {lines : List Str} (h : ∀ line ∈ lines, '\n' ∉ line) (rest : Str) :
    splitLines (lines.flatMap (· ++ ['\n']) ++ rest) = lines ++ splitLines rest := by
  induction lines with
  | nil => rfl
  | cons line lines ih =>
      obtain ⟨hline, hlines⟩ := List.forall_mem_cons.mp h
      rw [List.flatMap_cons, List.append_assoc, List.append_assoc, List.singleton_append,
        splitLines_line hline, ih hlines, List.cons_append]

theorem writeToFile_eq (t : Tagger) (word : Str) :
    writeToFile t word = (wordLines t word).flatMap (· ++ ['\n']) := by
  unfold writeToFile wordLines
  split <;> split <;> simp

theorem newline_of_mem_wordLines {t : Tagger} (h : t.IsNormal) {word line : Str}
    (hword : IsWord word) (hline : line ∈ wordLines t word) : '\n' ∉ line := by
  unfold wordLines at hline
  rcases List.mem_append.mp hline with hline | hline
  · rcases List.mem_append.mp hline with hline | hline
    · cases List.mem_singleton.mp hline
      simpa using hword.newline
    · split at hline
      · rename_i hne
        cases List.mem_singleton.mp hline
        simpa using (h.typeOf hne).1.newline
      · cases hline
  · split at hline
    · rename_i hne
      cases List.mem_singleton.mp hline
      simpa using (h.genusOf hne).newline
    · cases hline

theorem splitLines_words {t : Tagger} (h : t.IsNormal) {words : List Str}
    (hwords : ∀ word ∈ words, IsWord word) :
    splitLines (words.flatMap (writeToFile t)) = words.flatMap (wordLines t) := by
  have hlines : ∀ line ∈ words.flatMap (wordLines t), '\n' ∉ line := by
    intro line hline
    obtain ⟨word, hword, hline⟩ := List.mem_flatMap.mp hline
    exact newline_of_mem_wordLines h (hwords word hword) hline
  have hsplit := splitLines_lines hlines []
  rw [List.flatMap_assoc, List.append_nil, splitLines_nil, List.append_nil] at hsplit
  rw [← hsplit, List.flatMap_congr fun word _ => writeToFile_eq t word]

/-- What reading the words of a tagger does to the maps. -/
theorem readPosFile_words {t : Tagger} (h : t.IsNormal) {words : List Str}
    (hwords : ∀ word ∈ words, IsWord word) (start : Tagger) :
    readPosFile start (words.flatMap (writeToFile t)) =
      ⟨words.foldl (fun m word => insertValue m word (t.typeOf word)) start.type,
        words.foldl (fun m word => insertValue m word (t.genusOf word)) start.genus⟩ := by
  have hfold : ∀ state : Str × Tagger,
      (words.foldl (fun state word => (wordLines t word).foldl readLine state) state).2 =
        ⟨words.foldl (fun m word => insertValue m word (t.typeOf word)) state.2.type,
          words.foldl (fun m word => insertValue m word (t.genusOf word)) state.2.genus⟩ := by
    induction words with
    | nil => exact fun _ => rfl
    | cons word words ih =>
        obtain ⟨hword, hwords⟩ := List.forall_mem_cons.mp hwords
        intro state
        rw [List.foldl_cons, foldl_wordLines h hword]
        exact ih hwords _
  rw [readPosFile, splitLines_words h hwords, List.foldl_flatMap]
  exact hfold ([], start)

theorem insertValue_get (m : HashMap Str Str) (key value word : Str) :
    (insertValue m key value).get word =
      if word = key ∧ value ≠ [] then some ((m.get key).getD value) else m.get word := by
  unfold insertValue
  by_cases hne : value ≠ []
  · simp [hne, insert_get]
  · simp [hne]

/-- Inserting the values of all words gives these values, as far as the map held none but them. -/
theorem foldl_insertValue {values : Str → Str} {words : List Str} {m : HashMap Str Str}
    (hm : ∀ word value, m.get word = some value → value = values word) (word : Str)
    (hword : values word ≠ [] → word ∈ words ∨ (m.get word).isSome) :
    ((words.foldl (fun m word => insertValue m word (values word)) m).get word).getD [] =
      values word := by
  induction words generalizing m with
  | nil =>
      rw [List.foldl_nil]
      cases hget : m.get word with
      | none =>
          by_contra hne
          simpa [hget] using hword (Ne.symm hne)
      | some value => exact hm word value hget
  | cons key words ih =>
      refine ih (fun w value hvalue => ?_) fun hne => ?_
      · rw [insertValue_get] at hvalue
        split at hvalue
        · rename_i hkey
          cases hget : m.get key with
          | none =>
              rw [hget] at hvalue
              cases hvalue
              rw [hkey.1, Option.getD_none]
          | some old =>
              rw [hget] at hvalue
              cases hvalue
              rw [hkey.1]
              exact hm key old hget
        · exact hm w value hvalue
      · rw [insertValue_get]
        by_cases hkey : word = key
        · exact Or.inr (by rw [if_pos ⟨hkey, hkey ▸ hne⟩, Option.isSome_some])
        · rw [if_neg fun h => hkey h.1]
          exact (hword hne).imp_left fun hmem => (List.mem_cons.mp hmem).resolve_left hkey

/-- A tagger has no values but those of another one. -/
structure Tagger.Within (start t : Tagger) : Prop where
  type : ∀ word value, start.type.get word = some value → value = t.typeOf word
  genus : ∀ word value, start.genus.get word = some value → value = t.genusOf word

theorem Tagger.empty_within (t : Tagger) : Tagger.empty.Within t := ⟨nofun, nofun⟩

/-- The words that have a type or a genus. -/
def Tagger.words (t : Tagger) : List Str := t.type.map (·.1) ++ t.genus.map (·.1)

theorem mem_keys {m : HashMap Str Str} {word : Str} (h : (m.get word).getD [] ≠ []) :
    word ∈ m.map (·.1) := by
  cases hget : m.get word with
  | none => simp [hget] at h
  | some value => exact List.mem_map_of_mem (f := (·.1)) (HashMap.mem_of_get hget)

/-- Writing the words of a tagger and reading them with an empty tagger, or one that has some of the
values already, restores the values of every word. -/
theorem readPosFile_writeToFile {t start : Tagger} (h : t.IsNormal) (hstart : start.Within t)
    {words : List Str} (hall : t.words ⊆ words) (hwords : ∀ word ∈ words, IsWord word)
    (word : Str) :
    (readPosFile start (words.flatMap (writeToFile t))).typeOf word = t.typeOf word ∧
      (readPosFile start (words.flatMap (writeToFile t))).genusOf word = t.genusOf word := by
  rw [readPosFile_words h hwords]
  exact ⟨foldl_insertValue hstart.type word fun hne =>
      Or.inl (hall (List.mem_append_left _ (mem_keys hne))),
    foldl_insertValue hstart.genus word fun hne =>
      Or.inl (hall (List.mem_append_right _ (mem_keys hne)))⟩

/-- A file with types that are changed when they are read. -/
def animalTags : Tagger :=
  readPosFile .empty "Katze:\n  type: f;\n  genus: f\nmiauen:\n  type: vi\n".toList

theorem readPosFile_writeToFile_katze :
    (readPosFile .empty (animalTags.words.flatMap (writeToFile animalTags))).typeOf
        "Katze".toList = animalTags.typeOf "Katze".toList ∧
      (readPosFile .empty (animalTags.words.flatMap (writeToFile animalTags))).genusOf
        "Katze".toList = animalTags.genusOf "Katze".toList := by
  have hwords : ∀ word ∈ animalTags.words, isLine isColon isColon word = true := by decide +kernel
  refine readPosFile_writeToFile (isNormal_readPosFile Tagger.empty_isNormal _)
    (Tagger.empty_within _) (List.Subset.refl _) (fun word hword => ?_) _
  obtain ⟨hnewline, hhead, hlast⟩ := isLine_iff.mp (hwords word hword)
  exact ⟨hnewline, hhead, hlast⟩

end Freehal.Grammar2012
