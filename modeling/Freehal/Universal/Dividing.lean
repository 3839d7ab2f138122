import Freehal.Disk.QueryCache
import Freehal.Lib.Buffer
import Freehal.Lib.Pieces

/-!
# Dividing and joining words

`divide_words` and `join_words` of `hal2012-universal.c`, with the positions that the splitter moves
and the buffer that the joined words are appended to.
-/

namespace Freehal.Universal.Dividing

open Freehal.Lib

/-! ## Dividing -/

/-- What `strncpy` copies from `a` to `e`. -/
def wordAt (str : Str) (a e : Nat) : Word := ⟨(str.drop a).take (e - a)⟩

/-- The inner loop over repeated blanks, which moves `p` and `a`. -/
def skipBlanks (str : Str) : Nat → Nat → Nat → Option (Nat × Nat)
  | 0, _, _ => none
  | fuel + 1, p, a =>
      if p + 1 < str.length ∧ str[p]? = some ' ' ∧ str[p + 1]? = some ' ' then
        skipBlanks str fuel (p + 1) (a + 1)
      else some (p, a)

/-- The loop over `p`. -/
def scan (str : Str) : Nat → Nat → Nat → List Word → Option (Nat × Nat × List Word)
  | 0, _, _, _ => none
  | fuel + 1, p, a, list =>
      if p < str.length then
        if str[p]? = some ' ' then do
          let found := if a < p then (p + 1, list ++ [wordAt str a p]) else (a, list)
          let (p, a) ← skipBlanks str fuel p found.1
          scan str fuel (p + 1) a found.2
        else scan str fuel (p + 1) a list
      else some (p, a, list)

/-- The last word has no blank behind it. -/
def lastWord (str : Str) (e a : Nat) (list : List Word) : List Word :=
  if a < e then
    if isGood (wordAt str a e).name then list ++ [wordAt str a e] else list
  else list

/-- There is no result if the fuel is used up. -/
def divideText (str : Str) : Option (List Word) := do
  let (e, a, list) ← scan str (str.length + 1) 0 0 []
  return lastWord str e a list

/-- Nothing is a null pointer. -/
def divideWords (str : Option Str) : Option (List Word) :=
  let str := str.getD []
  divideText (if str ≠ [] ∧ str.head? ≠ some '0' ∧ str.head? ≠ some ' ' then str else [])

/-! ## Joining -/

/-- The loop over the words; nothing stands in front of the first one. -/
def appendWords (size : Nat) (separator : Str) : Bool → Str → List Word → Option Str
  | _, string, [] => some string
  | first, string, word :: words => do
      let string ← if first then some string else strcat (size + 1) string separator
      let string ← strcat (size + 1) string word.name
      appendWords size separator false string words

/-- `size` -/
def sizeFor (words : List Word) : Nat :=
  words.foldl (fun size word => size + (3 + word.name.length)) 0

def joinWordsBy (separator : Str) (words : List Word) : Option Str :=
  appendWords (sizeFor words) separator true [] words

def joinWords (words : List Word) : Option Str := joinWordsBy [' '] words

/-! ## What the loops leave -/

section

variable {str : Str} {fuel p a : Nat} {list : List Word}

/-- Between the blanks from `p` on, `a` keeps its distance. -/
theorem skipBlanks_eq (hfuel : str.length ≤ fuel + p) (hp : str[p]? = some ' ') :
    ∃ k, skipBlanks str fuel p a = some (p + k, a + k) ∧ p + k < str.length ∧
      str[p + k + 1]? ≠ some ' ' ∧
      pieces ' ' (str.drop (p + k + 1)) = pieces ' ' (str.drop (p + 1)) := by
  induction fuel generalizing p a with
  | zero => exact absurd (List.getElem?_eq_some_iff.mp hp).1 (by omega)
  | succ fuel ih =>
      have hlt : p < str.length := (List.getElem?_eq_some_iff.mp hp).1
      rw [skipBlanks]
      split
      · rename_i hnext
        obtain ⟨hlt', -, hblank⟩ := hnext
        obtain ⟨k, hskip, hk, hend, hpieces⟩ := @ih (p + 1) (a + 1) (by omega) hblank
        have hdrop : str.drop (p + 1) = ' ' :: str.drop (p + 1 + 1) := by
          rw [List.drop_eq_getElem_cons hlt']
          exact congrArg (· :: _) (List.getElem?_eq_some_iff.mp hblank).2
        have hadd : p + 1 + k = p + (k + 1) := by omega
        have hadd' : a + 1 + k = a + (k + 1) := by omega
        rw [hadd] at hskip hk hend hpieces
        rw [hadd'] at hskip
        refine ⟨k + 1, hskip, hk, hend, ?_⟩
        rw [hpieces, hdrop, pieces_cons]
      · rename_i hnext
        refine ⟨0, rfl, hlt, fun hblank => hnext ?_, rfl⟩
        exact ⟨(List.getElem?_eq_some_iff.mp hblank).1, hp, hblank⟩

/-- The words in front of `a` are in the list, and no blank stands between `a` and `p`. -/
structure Divided (str : Str) (p a : Nat) (list : List Word) : Prop where
  le : a ≤ p
  le_length : p ≤ str.length
  word : ' ' ∉ (str.drop a).take (p - a)
  start : a = p → str[p]? ≠ some ' '
  pieces : list.map (·.name) ++ Lib.pieces ' ' (str.drop a) = Lib.pieces ' ' str

/-- What stands behind the word that ends at `p`. -/
theorem drop_eq_word (h : a ≤ p) (str : Str) :
    str.drop a = (str.drop a).take (p - a) ++ str.drop p := by
  have hdrop : str.drop p = (str.drop a).drop (p - a) := by
    rw [List.drop_drop, Nat.add_sub_cancel' h]
  rw [hdrop, List.take_append_drop]

theorem wordAt_ne_nil (h : a < p) (hp : p ≤ str.length) : (str.drop a).take (p - a) ≠ [] := by
  intro hnil
  have hlength := congrArg List.length hnil
  rw [List.length_take, List.length_drop, List.length_nil] at hlength
  omega

/-- A character of a word. -/
theorem Divided.char (h : Divided str p a list) (hp : p < str.length) (hc : str[p]? ≠ some ' ') :
    Divided str (p + 1) a list where
  le := Nat.le_succ_of_le h.le
  le_length := hp
  word := by
    have hsub : p + 1 - a = p - a + 1 := Nat.succ_sub h.le
    have hget : (str.drop a)[p - a]? = str[p]? := by
      rw [List.getElem?_drop, Nat.add_sub_cancel' h.le]
    rw [hsub, List.take_add_one, hget, List.mem_append, not_or]
    refine ⟨h.word, fun hmem => hc ?_⟩
    simpa using hmem
  start := fun heq => absurd heq (by have := h.le; omega)
  pieces := h.pieces

/-- A blank ends the word in front of it. -/
theorem Divided.blank (h : Divided str p a list) (hp : str[p]? = some ' ') :
    a < p ∧ (list ++ [wordAt str a p]).map (·.name) ++ Lib.pieces ' ' (str.drop (p + 1)) =
      Lib.pieces ' ' str := by
  have hlt : a < p := Nat.lt_of_le_of_ne h.le fun heq => h.start heq hp
  obtain ⟨hplt, hget⟩ := List.getElem?_eq_some_iff.mp hp
  have hdrop : str.drop a = (str.drop a).take (p - a) ++ ' ' :: str.drop (p + 1) := by
    rw [← hget, ← List.drop_eq_getElem_cons hplt]
    exact drop_eq_word h.le str
  refine ⟨hlt, ?_⟩
  rw [← h.pieces, hdrop, pieces_append_cons,
    pieces_of_not_mem h.word (wordAt_ne_nil hlt h.le_length)]
  simp [wordAt]

/-- The loop ends behind the last character. -/
theorem Divided.scan (h : Divided str p a list) (hfuel : str.length < fuel + p) :
    ∃ a' list', scan str fuel p a list = some (str.length, a', list') ∧
      Divided str str.length a' list' := by
  induction fuel generalizing p a list with
  | zero => exact absurd h.le_length (by omega)
  | succ fuel ih =>
      rw [Dividing.scan]
      by_cases hp : p < str.length
      · rw [if_pos hp]
        by_cases hblank : str[p]? = some ' '
        · obtain ⟨hlt, hpieces⟩ := h.blank hblank
          obtain ⟨k, hskip, hk, hend, hrest⟩ := @skipBlanks_eq str fuel p (p + 1) (by omega) hblank
          have hnext : Divided str (p + k + 1) (p + 1 + k) (list ++ [wordAt str a p]) := by
            have hadd : p + 1 + k = p + k + 1 := by omega
            rw [hadd]
            refine ⟨Nat.le_refl _, hk, by simp, fun _ => hend, ?_⟩
            rw [hrest]
            exact hpieces
          obtain ⟨a', list', hscan, hdivided⟩ := ih hnext (by omega)
          refine ⟨a', list', ?_, hdivided⟩
          rw [if_pos hblank]
          dsimp only
          rw [if_pos hlt, hskip]
          exact hscan
        · rw [if_neg hblank]
          exact ih (h.char hp hblank) (by omega)
      · have heq : p = str.length := by have := h.le_length; omega
        subst heq
        rw [if_neg hp]
        exact ⟨a, list, rfl, h⟩

theorem Divided.lastWord (h : Divided str str.length a list) :
    (lastWord str str.length a list).map (·.name) = Lib.pieces ' ' str := by
  have hrest : str.drop a = (str.drop a).take (str.length - a) := by
    rw [List.take_of_length_le (by rw [List.length_drop])]
  rw [← h.pieces, Dividing.lastWord]
  by_cases hlt : a < str.length
  · have hne := wordAt_ne_nil hlt (Nat.le_refl _)
    have hgood : isGood (wordAt str a str.length).name = true := by
      simp [isGood, isBad, wordAt, hne]
    rw [if_pos hlt, if_pos hgood, hrest, pieces_of_not_mem h.word hne]
    simp [wordAt]
  · rw [if_neg hlt, List.drop_eq_nil_of_le (by omega), pieces_nil, List.append_nil]

end

theorem divideText_eq {str : Str} (h : str.head? ≠ some ' ') :
    divideText str = some ((pieces ' ' str).map Word.mk) := by
  have hstart : Divided str 0 0 [] :=
    ⟨Nat.le_refl 0, Nat.zero_le _, by simp, fun _ => by rwa [← List.head?_eq_getElem?], rfl⟩
  obtain ⟨a, list, hscan, hdivided⟩ := hstart.scan (Nat.lt_succ_self _)
  rw [divideText, hscan, ← hdivided.lastWord, List.map_map]
  exact congrArg some (List.map_id _).symm

/-- The words are the pieces between the blanks. -/
theorem divideWords_eq (str : Str) : divideWords (some str) = some (Disk.divideWords str) := by
  rw [divideWords, Option.getD_some, Disk.divideWords]
  by_cases hhead : str.head? = some '0' ∨ str.head? = some ' '
  · rw [if_pos hhead, if_neg (by tauto), divideText_eq (by simp)]
    rfl
  · rw [if_neg hhead]
    by_cases hnil : str = []
    · subst hnil
      exact divideText_eq (by simp)
    · rw [if_pos (by tauto)]
      exact divideText_eq fun h => hhead (Or.inr h)

/-! ## The joined text -/

theorem foldl_size (words : List Word) (n : Nat) :
    words.foldl (fun size word => size + (3 + word.name.length)) n = n + sizeFor words := by
  induction words generalizing n with
  | nil => rfl
  | cons word words ih =>
      have hsize : sizeFor (word :: words) =
          words.foldl (fun size word => size + (3 + word.name.length)) (3 + word.name.length) := by
        rw [sizeFor, List.foldl_cons, Nat.zero_add]
      rw [List.foldl_cons, ih, hsize, ih, Nat.add_assoc]

theorem sizeFor_cons (word : Word) (words : List Word) :
    sizeFor (word :: words) = 3 + word.name.length + sizeFor words := by
  rw [sizeFor, List.foldl_cons, foldl_size, Nat.zero_add]

/-- The text has room, as each word has room for itself and three more characters. -/
theorem appendWords_eq {size : Nat} {separator : Str} (h : separator.length ≤ 3) {words : List Word}
    {string : Str} (hsize : string.length + sizeFor words ≤ size) :
    appendWords size separator false string words =
      some (string ++ words.flatMap fun word => separator ++ word.name) := by
  induction words generalizing string with
  | nil => simp [appendWords]
  | cons word words ih =>
      rw [sizeFor_cons] at hsize
      have hseparator : strcat (size + 1) string separator = some (string ++ separator) :=
        if_pos (by omega)
      have hword : strcat (size + 1) (string ++ separator) word.name =
          some (string ++ separator ++ word.name) :=
        if_pos (by rw [List.length_append]; omega)
      have hlength : (string ++ separator ++ word.name).length + sizeFor words ≤ size := by
        rw [List.length_append, List.length_append]
        omega
      rw [appendWords, if_neg Bool.false_ne_true]
      simp only [Option.bind_eq_bind, hseparator, Option.bind_some, hword, ih hlength]
      simp

/-- With a separator of at most three characters the text has room in its buffer. -/
theorem joinWordsBy_eq {separator : Str} (h : separator.length ≤ 3) (words : List Word) :
    joinWordsBy separator words = some (separator.intercalate (words.map (·.name))) := by
  cases words with
  | nil => rfl
  | cons word words =>
      have hsize := sizeFor_cons word words
      have hword : strcat (sizeFor (word :: words) + 1) [] word.name = some word.name :=
        if_pos (by rw [List.length_nil]; omega)
      have hrest : word.name.length + sizeFor words ≤ sizeFor (word :: words) := by omega
      rw [joinWordsBy, appendWords, if_pos rfl]
      simp only [Option.bind_eq_bind, Option.bind_some, hword, appendWords_eq h hrest]
      rw [List.map_cons, intercalate_cons, List.flatMap_map]

theorem joinWords_eq (words : List Word) : joinWords words = some (Universal.joinWords words) :=
  joinWordsBy_eq (by decide) words

/-! ## One after the other -/

/-- The text with every run of blanks as one, and none at the end. -/
def squeeze : Str → Str
  | [] => []
  | c :: str =>
      if c = ' ' ∧ (str = [] ∨ str.head? = some ' ') then squeeze str else c :: squeeze str

theorem squeeze_of_ne {c : Char} (hc : c ≠ ' ') (str : Str) :
    squeeze (c :: str) = c :: squeeze str := by
  simp [squeeze, hc]

/-- A word in front of joined words. -/
theorem intercalate_cons_of_eq {word str : Str} {d : Char} {rest : List Str}
    (h : [' '].intercalate rest = d :: str) :
    [' '].intercalate (word :: rest) = word ++ ' ' :: d :: str := by
  cases rest with
  | nil => cases h
  | cons next rest => rw [List.intercalate_cons_cons, h, List.append_assoc, List.singleton_append]

/-- Words without blanks are the pieces of their joined text. -/
theorem pieces_intercalate {names : List Str} (h : ∀ name ∈ names, name ≠ [] ∧ ' ' ∉ name) :
    pieces ' ' ([' '].intercalate names) = names := by
  cases hnames : names with
  | nil => rfl
  | cons name rest =>
      have hsplit : ([' '].intercalate names).splitOn ' ' = names :=
        List.splitOn_intercalate ' ' (fun name hname => (h name hname).2) (by simp [hnames])
      rw [← hnames, pieces, hsplit]
      exact List.filter_eq_self.mpr fun name hname => decide_eq_true (h name hname).1

/-- Behind a word that has been begun, or at the beginning of one. -/
theorem intercalate_pieces {word str : Str} (hword : ' ' ∉ word)
    (hstart : word = [] → str.head? ≠ some ' ') :
    [' '].intercalate (pieces ' ' (word ++ str)) = word ++ squeeze str := by
  induction str generalizing word with
  | nil =>
      rw [List.append_nil, squeeze, List.append_nil]
      by_cases hnil : word = []
      · subst hnil
        rfl
      · rw [pieces_of_not_mem hword hnil, List.intercalate_singleton]
  | cons c str ih =>
      by_cases hc : c = ' '
      · subst hc
        have hne : word ≠ [] := fun hnil => hstart hnil rfl
        have hpieces : pieces ' ' (word ++ ' ' :: str) = word :: pieces ' ' str := by
          rw [pieces_append_cons, pieces_of_not_mem hword hne]
          rfl
        cases str with
        | nil =>
            rw [hpieces, pieces_nil, List.intercalate_singleton]
            simp [squeeze]
        | cons d str =>
            by_cases hd : d = ' '
            · subst hd
              have hrest := ih hword (fun hnil => absurd hnil hne)
              rw [hpieces, pieces_cons]
              rw [pieces_append_cons, pieces_of_not_mem hword hne, List.singleton_append] at hrest
              rw [hrest]
              simp [squeeze]
            · have hrest := @ih [] List.not_mem_nil (fun _ => by simpa using hd)
              rw [List.nil_append, List.nil_append, squeeze_of_ne hd] at hrest
              rw [hpieces, intercalate_cons_of_eq hrest]
              simp [squeeze, hd]
      · have hrest := @ih (word ++ [c]) (by simpa [hword] using fun h => hc h.symm) (by simp)
        rw [List.append_assoc, List.singleton_append] at hrest
        rw [hrest, squeeze_of_ne hc, List.append_assoc, List.singleton_append]

theorem names_mk (names : List Str) : (names.map Word.mk).map (·.name) = names := by
  rw [List.map_map]
  exact List.map_id _

/-- Words that are joined are divided again, and a divided text is joined again but for repeated
blanks and blanks at the end. -/
theorem divide_join (names : List Str) (str : Str) :
    ((∀ name ∈ names, name ≠ [] ∧ ' ' ∉ name) →
        (∀ name, names.head? = some name → name.head? ≠ some '0') →
          (joinWords (names.map Word.mk)).bind (fun joined => divideWords (some joined)) =
            some (names.map Word.mk)) ∧
      (str.head? ≠ some ' ' → str.head? ≠ some '0' →
        (divideWords (some str)).bind joinWords = some (squeeze str)) := by
  refine ⟨fun h hzero => ?_, fun hblank hzero => ?_⟩
  · rw [joinWords_eq, Option.bind_some, divideWords_eq, Universal.joinWords, names_mk,
      Disk.divideWords]
    have hhead : ¬ (([' '].intercalate names).head? = some '0' ∨
        ([' '].intercalate names).head? = some ' ') := by
      cases names with
      | nil => simp
      | cons name rest =>
          obtain ⟨hne, hblank⟩ := h name List.mem_cons_self
          obtain ⟨c, name, rfl⟩ := List.exists_cons_of_ne_nil hne
          have hc : c ≠ '0' := by simpa using hzero (c :: name) rfl
          have hb : ' ' ≠ c := fun heq => hblank (heq ▸ List.mem_cons_self)
          rw [intercalate_cons]
          simp [hc, hb.symm]
    rw [if_neg hhead]
    exact congrArg (fun names => some (names.map Word.mk)) (pieces_intercalate h)
  · rw [divideWords_eq, Option.bind_some, joinWords_eq, Universal.joinWords, Disk.divideWords,
      if_neg (by tauto), names_mk]
    have hjoined := @intercalate_pieces [] str List.not_mem_nil fun _ => hblank
    exact congrArg some hjoined

example : (divideWords (some "ein  kleiner   hund ".toList)).bind joinWords =
    some "ein kleiner hund".toList := by decide

end Freehal.Universal.Dividing
