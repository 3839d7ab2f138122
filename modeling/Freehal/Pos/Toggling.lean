import Freehal.Pos.Rewriting
import Freehal.Pos.Tags

/-!
# Toggling words

`StandardTagger.readToggleWordsFrom`, `StandardTagger.toggle` and `GermanTagger.toggle`, and for
which words toggling twice gives the word again.
-/

namespace Freehal.Pos.Toggling

open Index (readLines)
open Lib (HashMap)

/-! ## The files of toggle words -/

/-- `trim` -/
def trim (line : Str) : Str := (line.dropWhile (· ≤ ' ')).rdropWhile (· ≤ ' ')

/-- `split("[,]+")`. Only at the start a part can be empty. -/
def splitCommas (line : Str) : List Str :=
  match line.splitOn ',' with
  | first :: second :: rest => (first :: (second :: rest).filter (· ≠ [])).rdropWhile (· = [])
  | parts => parts

abbrev ToggleMap := HashMap Str Str

/-- The body of the loop. -/
def putLine (togglemap : ToggleMap) (line : Str) : ToggleMap :=
  match splitCommas (trim line) with
  | first :: second :: _ => HashMap.put (HashMap.put togglemap first second) second first
  | _ => togglemap

def readToggleWordsFrom (togglemap : ToggleMap) (text : Str) : ToggleMap :=
  (readLines text).foldl putLine togglemap

/-- The map after files with these texts were read. -/
def togglemapOf (files : List Str) : ToggleMap := files.foldl readToggleWordsFrom []

/-! ## Words and taggers -/

/-- A word whose tags may be missing. -/
structure Word where
  word : Str
  tag : Option Tags
  accepted : isRejected word = false

/-- The constructor; nothing is its exception. -/
def Word.new (word : Str) (tag : Option Tags) : Option Word :=
  if h : isRejected word = false then some ⟨word, tag, h⟩ else none

/-- In `getPartOfSpeech` the outer nothing is the exception, and the inner one is `null`. -/
structure Tagger where
  togglemap : ToggleMap
  getPartOfSpeech : Str → Option (Option Tags)

/-- `Word.getTags`, and what `setTags` stores. -/
def Tagger.getTags (tagger : Tagger) (word : Str) : Option Tags → Option (Option Tags)
  | some tag => some (some tag)
  | none => tagger.getPartOfSpeech word

def isVerb (tag : Option Tags) : Bool := tag.any (·.category = some ['v'])

/-- `StandardTagger.toggle` -/
def Tagger.standardToggle (tagger : Tagger) (word : Word) : Option Word := do
  let tag ← tagger.getTags word.word word.tag
  match HashMap.get tagger.togglemap word.word with
  | some toggled => Word.new toggled tag
  | none => return { word with tag := tag }

/-- `GermanTagger.toggle` -/
def Tagger.toggle (tagger : Tagger) (word : Word) : Option Word := do
  let toggled ← tagger.standardToggle word
  if toggled.word ≠ word.word then return toggled
  let tag ← tagger.getTags word.word word.tag
  if isVerb tag then
    let newWord := rewrite word.word
    if newWord = word.word then return { word with tag := tag } else Word.new newWord tag
  else return { word with tag := tag }

/-! ## The property -/

/-- The endings that are toggled. -/
def endingPairs : List (Str × Str) :=
  [("elst".toList, "le".toList), ("te".toList, "test".toList), ("sst".toList, "sse".toList),
    ("est".toList, "e".toList), ("st".toList, "e".toList)]

/-- One ending of a pair takes the place of the other one. -/
def Exchanged (back back' : Str) : Prop :=
  ∃ stem, ∃ p ∈ endingPairs,
    back = p.1.reverse ++ stem ∧ back' = p.2.reverse ++ stem ∨
      back = p.2.reverse ++ stem ∧ back' = p.1.reverse ++ stem

/-- The words stand in one pair of the files. -/
def Tagger.Listed (tagger : Tagger) (word word' : Str) : Prop :=
  HashMap.get tagger.togglemap word = some word' ∨ HashMap.get tagger.togglemap word' = some word

/-- Only the members of a pair are exchanged, and toggling twice gives the word again. -/
def Tagger.TogglesBack (tagger : Tagger) (word : Word) : Prop :=
  ∃ toggled twice, tagger.toggle word = some toggled ∧ tagger.toggle toggled = some twice ∧
    twice.word = word.word ∧
    (toggled.word = word.word ∨ tagger.Listed word.word toggled.word ∨
      AtEnd Exchanged word.word toggled.word)

/-! ## The condition -/

/-- Another word that the map gives for a word. -/
def Tagger.partner (tagger : Tagger) (word : Str) : Option Str :=
  (HashMap.get tagger.togglemap word).filter (· ≠ word)

/-- A word with a partner is the partner of its partner, or the replacements turn the partner, which
the files list with itself, into the word. A verb without a partner has no ending of the rules, or
one in a regular pair, or the files list it with itself and with the word that it is turned into. -/
def Tagger.Returns (tagger : Tagger) (word : Word) : Prop :=
  ∃ tag, tagger.getTags word.word word.tag = some tag ∧
    match tagger.partner word.word with
    | some other =>
        isRejected other = false ∧ ∃ tag', tagger.getTags other tag = some tag' ∧
          (tagger.partner other = some word.word ∨
            HashMap.get tagger.togglemap other = some other ∧ isVerb tag' = true ∧
              Turns other word.word)
    | none =>
        isVerb tag = true → Untouched word.word ∨
          (∃ other, AtEnd Swaps word.word other ∧ tagger.partner other = none) ∨
          ∃ other, Turns word.word other ∧ isRejected other = false ∧
            tagger.partner other = some word.word

/-! ## What the map holds -/

/-- What the map gives is a key of the map. -/
def Closed (togglemap : ToggleMap) : Prop :=
  ∀ word other, HashMap.get togglemap word = some other →
    (HashMap.get togglemap other).isSome = true

theorem Closed.putLine {togglemap : ToggleMap} (h : Closed togglemap) (line : Str) :
    Closed (putLine togglemap line) := by
  rw [Toggling.putLine]
  split
  · next first second _ _ =>
      intro word other hget
      simp only [HashMap.get_put] at hget ⊢
      by_cases h₂ : other = second
      · simp [h₂]
      by_cases h₁ : other = first
      · rw [if_pos h₁]
        split <;> rfl
      rw [if_neg h₂, if_neg h₁]
      split at hget
      · exact (h₁ (Option.some.inj hget).symm).elim
      · split at hget
        · exact (h₂ (Option.some.inj hget).symm).elim
        · exact h word other hget
  · exact h

theorem Closed.readToggleWordsFrom {togglemap : ToggleMap} (h : Closed togglemap) (text : Str) :
    Closed (readToggleWordsFrom togglemap text) :=
  List.foldlRecOn _ _ h fun _ hm line _ => hm.putLine line

theorem togglemapOf_closed (files : List Str) : Closed (togglemapOf files) :=
  List.foldlRecOn _ _ (fun _ _ h => nomatch h) fun _ hm text _ => hm.readToggleWordsFrom text

/-! ## One call -/

variable {tagger : Tagger}

/-- The text of the word that `toggle` returns. -/
def Tagger.toggledWord (tagger : Tagger) (word : Str) (tag : Option Tags) : Str :=
  match tagger.partner word with
  | some other => other
  | none => if isVerb tag then rewrite word else word

theorem Word.new_eq_some {word : Str} {tag : Option Tags} {w : Word} :
    Word.new word tag = some w ↔ w.word = word ∧ w.tag = tag := by
  rw [Word.new]
  constructor
  · intro h
    split at h
    · cases h
      exact ⟨rfl, rfl⟩
    · cases h
  · rintro ⟨rfl, rfl⟩
    rw [dif_pos w.accepted]

theorem Tagger.getTags_again {word : Str} {tag tag' : Option Tags}
    (h : tagger.getTags word tag = some tag') : tagger.getTags word tag' = some tag' := by
  cases tag with
  | some t =>
      cases h
      rfl
  | none =>
      cases tag' with
      | some t => rfl
      | none => exact h

theorem Word.new_self (word : Word) (tag : Option Tags) :
    Word.new word.word tag = some { word with tag := tag } :=
  dif_pos word.accepted

/-- Where the map gives the word itself, the replacements are tried as if it gave nothing. -/
theorem Tagger.toggle_eq (word : Word) : tagger.toggle word =
    (tagger.getTags word.word word.tag).bind fun tag =>
      Word.new (tagger.toggledWord word.word tag) tag := by
  cases htag : tagger.getTags word.word word.tag with
  | none => simp [Tagger.toggle, Tagger.standardToggle, htag]
  | some tag =>
      have hrest : (if isVerb tag = true then
            if rewrite word.word = word.word then some { word with tag := tag }
            else Word.new (rewrite word.word) tag
          else some { word with tag := tag }) =
          Word.new (if isVerb tag then rewrite word.word else word.word) tag := by
        split
        · split
          · next h => rw [h, Word.new_self]
          · rfl
        · rw [Word.new_self]
      cases hget : HashMap.get tagger.togglemap word.word with
      | none =>
          have hp : tagger.partner word.word = none := by simp [Tagger.partner, hget]
          simpa [Tagger.toggle, Tagger.standardToggle, Tagger.toggledWord, htag, hget, hp]
            using hrest
      | some other =>
          by_cases ho : other = word.word
          · have hp : tagger.partner word.word = none := by simp [Tagger.partner, hget, ho]
            simpa [Tagger.toggle, Tagger.standardToggle, Tagger.toggledWord, htag, hget, hp, ho,
              Word.new_self] using hrest
          · have hp : tagger.partner word.word = some other := by
              simp [Tagger.partner, hget, ho]
            cases hn : Word.new other tag with
            | none =>
                simp [Tagger.toggle, Tagger.standardToggle, Tagger.toggledWord, htag, hget, hp, hn]
            | some toggled =>
                have hw : toggled.word ≠ word.word := (Word.new_eq_some.mp hn).1 ▸ ho
                simp [Tagger.toggle, Tagger.standardToggle, Tagger.toggledWord, htag, hget, hp, hn,
                  hw]

theorem Tagger.toggle_eq_some {word toggled : Word} : tagger.toggle word = some toggled ↔
    ∃ tag, tagger.getTags word.word word.tag = some tag ∧
      toggled.word = tagger.toggledWord word.word tag ∧ toggled.tag = tag := by
  simp only [Tagger.toggle_eq, Option.bind_eq_some_iff, Word.new_eq_some]

/-! ## Two calls -/

theorem Exchanged.of_swaps {back back' : Str} (h : Swaps back back') : Exchanged back back' := by
  have hte : ("te".toList, "test".toList) ∈ endingPairs := by decide
  have hst : ("st".toList, "e".toList) ∈ endingPairs := by decide
  cases h with
  | te s => exact ⟨s, _, hte, .inl ⟨rfl, rfl⟩⟩
  | test s => exact ⟨s, _, hte, .inr ⟨rfl, rfl⟩⟩
  | st s hs => exact ⟨s, _, hst, .inl ⟨rfl, rfl⟩⟩
  | e s hs => exact ⟨s, _, hst, .inr ⟨rfl, rfl⟩⟩

theorem isRejected_iff {word : Str} :
    isRejected word = true ↔ "\x7bword".toList ++ ['='] <:+: word :=
  decide_eq_true_iff

/-- What the constructor rejects ends with a character that is in no ending. -/
theorem isRejected_of_stem {stem ending ending' term : Str} (hend : '=' ∉ ending')
    (hterm : '=' ∉ term) (h : isRejected ((ending'.reverse ++ stem).reverse ++ term) = true) :
    isRejected ((ending.reverse ++ stem).reverse ++ term) = true := by
  rw [isRejected_iff, List.reverse_append, List.reverse_reverse, List.append_assoc] at h ⊢
  have hno : '=' ∉ ending' ++ term := by simp [hend, hterm]
  have hstem := Lib.infix_of_infix_append h hno
  exact hstem.trans (List.prefix_append _ _).isInfix

theorem endingPairs_noEquals : ∀ p ∈ endingPairs, '=' ∉ p.1 ∧ '=' ∉ p.2 := by decide

theorem isRejected_of_exchanged {text text' : Str} (h : AtEnd Exchanged text text')
    (htext : isRejected text' = true) : isRejected text = true := by
  obtain ⟨⟨stem, p, hp, hex⟩, hterm⟩ := h
  have hno : '=' ∉ (splitEnd text').2 := fun hm => nomatch isTerminator_of_mem hm
  obtain ⟨h₁, h₂⟩ := endingPairs_noEquals p hp
  rw [← splitEnd_eq text'] at htext
  rw [← splitEnd_eq text, hterm]
  obtain ⟨hb, hb'⟩ | ⟨hb, hb'⟩ := hex
  · rw [hb'] at htext
    rw [hb]
    exact isRejected_of_stem h₂ hno htext
  · rw [hb'] at htext
    rw [hb]
    exact isRejected_of_stem h₁ hno htext

theorem Tagger.togglesBack_iff {word : Word} : tagger.TogglesBack word ↔
    ∃ tag, tagger.getTags word.word word.tag = some tag ∧
      isRejected (tagger.toggledWord word.word tag) = false ∧
      ∃ tag', tagger.getTags (tagger.toggledWord word.word tag) tag = some tag' ∧
        tagger.toggledWord (tagger.toggledWord word.word tag) tag' = word.word ∧
        (tagger.toggledWord word.word tag = word.word ∨
          tagger.Listed word.word (tagger.toggledWord word.word tag) ∨
          AtEnd Exchanged word.word (tagger.toggledWord word.word tag)) := by
  simp only [Tagger.TogglesBack, Tagger.toggle_eq_some]
  constructor
  · rintro ⟨toggled, twice, ⟨tag, htag, hword, rfl⟩, ⟨tag', htag', htwice, rfl⟩, hback, hex⟩
    refine ⟨_, htag, ?_⟩
    rw [← hword]
    exact ⟨toggled.accepted, _, htag', htwice ▸ hback, hex⟩
  · rintro ⟨tag, htag, hacc, tag', htag', hback, hex⟩
    refine ⟨⟨_, tag, hacc⟩, ⟨word.word, tag', word.accepted⟩, ⟨tag, htag, rfl, rfl⟩, ?_, rfl, hex⟩
    exact ⟨tag', htag', hback.symm, rfl⟩

theorem Tagger.toggledWord_of_partner {word other : Str} (tag : Option Tags)
    (h : tagger.partner word = some other) : tagger.toggledWord word tag = other := by
  rw [Tagger.toggledWord, h]

theorem Tagger.toggledWord_of_noVerb {word : Str} {tag : Option Tags}
    (h : tagger.partner word = none) (hv : isVerb tag = false) :
    tagger.toggledWord word tag = word := by
  simp [Tagger.toggledWord, h, hv]

theorem Tagger.toggledWord_of_verb {word : Str} {tag : Option Tags}
    (h : tagger.partner word = none) (hv : isVerb tag = true) :
    tagger.toggledWord word tag = rewrite word := by
  simp [Tagger.toggledWord, h, hv]

/-- When a word is given back by another one. -/
theorem Tagger.toggledWord_eq_iff {word other : Str} (tag : Option Tags) (hne : other ≠ word) :
    tagger.toggledWord other tag = word ↔ tagger.partner other = some word ∨
      tagger.partner other = none ∧ isVerb tag = true ∧ Turns other word := by
  cases hp : tagger.partner other with
  | some o => simp [Tagger.toggledWord_of_partner tag hp]
  | none =>
      by_cases hv : isVerb tag = true
      · simp [Tagger.toggledWord_of_verb hp hv, hv, turns_iff, hne.symm]
      · simp [Tagger.toggledWord_of_noVerb hp (by simpa using hv), hv, hne]

theorem Tagger.get_of_partner {word other : Str} (h : tagger.partner word = some other) :
    HashMap.get tagger.togglemap word = some other ∧ other ≠ word := by
  simpa [Tagger.partner, Option.filter_eq_some_iff] using h

theorem Tagger.partner_eq_none_iff (h : Closed tagger.togglemap) {word other : Str}
    (hget : HashMap.get tagger.togglemap word = some other) : tagger.partner other = none ↔
      HashMap.get tagger.togglemap other = some other := by
  obtain ⟨o, ho⟩ := Option.isSome_iff_exists.mp (h word other hget)
  simp [Tagger.partner, ho, Option.filter_eq_none_iff]

/-- A verb that is rewritten comes back from its pair, or from the files. -/
theorem Tagger.rewritten_iff {word other : Str} {tag : Option Tags} (hv : isVerb tag = true)
    (hacc : isRejected word = false) (h : Turns word other) :
    (isRejected other = false ∧ tagger.toggledWord other tag = word ∧
        (tagger.Listed word other ∨ AtEnd Exchanged word other)) ↔
      AtEnd Swaps word other ∧ tagger.partner other = none ∨
        isRejected other = false ∧ tagger.partner other = some word := by
  have hne : other ≠ word := (turns_iff.mp h).2
  rw [Tagger.toggledWord_eq_iff tag hne, turns_back_iff h]
  constructor
  · rintro ⟨ho, hp | ⟨hp, -, hs⟩, -⟩
    · exact .inr ⟨ho, hp⟩
    · exact .inl ⟨hs, hp⟩
  · rintro (⟨hs, hp⟩ | ⟨ho, hp⟩)
    · have hex : AtEnd Exchanged word other := ⟨.of_swaps hs.1, hs.2⟩
      have ho : isRejected other = false := by
        rw [← Bool.not_eq_true] at hacc ⊢
        exact mt (isRejected_of_exchanged hex) hacc
      exact ⟨ho, .inr ⟨hp, hv, hs⟩, .inr hex⟩
    · exact ⟨ho, .inl hp, .inl (.inr (Tagger.get_of_partner hp).1)⟩

/-- What the condition says of a verb without a partner. -/
theorem Tagger.returns_verb_iff {word : Word} {tag : Option Tags} (hv : isVerb tag = true)
    (hp : tagger.partner word.word = none) :
    (isRejected (rewrite word.word) = false ∧
        tagger.toggledWord (rewrite word.word) tag = word.word ∧
        (rewrite word.word = word.word ∨ tagger.Listed word.word (rewrite word.word) ∨
          AtEnd Exchanged word.word (rewrite word.word))) ↔
      Untouched word.word ∨ (∃ other, AtEnd Swaps word.word other ∧ tagger.partner other = none) ∨
        ∃ other, Turns word.word other ∧ isRejected other = false ∧
          tagger.partner other = some word.word := by
  by_cases hr : rewrite word.word = word.word
  · simp [Tagger.toggledWord_of_verb hp hv, hr, word.accepted, rewrite_self_iff.mp hr]
  have hturns : Turns word.word (rewrite word.word) := turns_iff.mpr ⟨rfl, hr⟩
  have hnot : ¬ Untouched word.word := mt rewrite_self_iff.mpr hr
  have huniq {other : Str} (h : Turns word.word other) : other = rewrite word.word :=
    (turns_iff.mp h).1.symm
  simp only [hr, hnot, false_or]
  rw [Tagger.rewritten_iff hv word.accepted hturns]
  constructor
  · rintro (⟨hs, ho⟩ | ⟨hacc, ho⟩)
    · exact .inl ⟨_, hs, ho⟩
    · exact .inr ⟨_, hturns, hacc, ho⟩
  · rintro (⟨other, hs, ho⟩ | ⟨other, ht, hacc, ho⟩)
    · obtain rfl := huniq (.inl ⟨hs.1.rewrites, hs.2⟩)
      exact .inl ⟨hs, ho⟩
    · obtain rfl := huniq ht
      exact .inr ⟨hacc, ho⟩

/-- Toggling twice gives the word again exactly for the words that meet the condition. -/
theorem toggle_toggle_iff (files : List Str) (getPartOfSpeech : Str → Option (Option Tags))
    (word : Word) :
    (Tagger.mk (togglemapOf files) getPartOfSpeech).TogglesBack word ↔
      (Tagger.mk (togglemapOf files) getPartOfSpeech).Returns word := by
  have hclosed := togglemapOf_closed files
  generalize htagger : Tagger.mk (togglemapOf files) getPartOfSpeech = tagger
  replace hclosed : Closed tagger.togglemap := htagger ▸ hclosed
  rw [Tagger.togglesBack_iff, Tagger.Returns]
  refine exists_congr fun tag => and_congr_right fun htag => ?_
  cases hp : tagger.partner word.word with
  | some other =>
      obtain ⟨hget, hne⟩ := Tagger.get_of_partner hp
      have hlisted : tagger.Listed word.word other := .inl hget
      simp [Tagger.toggledWord_of_partner tag hp, Tagger.toggledWord_eq_iff _ hne,
        Tagger.partner_eq_none_iff hclosed hget, hlisted]
  | none =>
      by_cases hv : isVerb tag = true
      · have htag' (text : Str) : tagger.getTags text tag = some tag := by
          cases tag with
          | some t => rfl
          | none => cases hv
        simp only [Tagger.toggledWord_of_verb hp hv, htag', Option.some.injEq, exists_eq_left', hv,
          forall_const]
        exact Tagger.returns_verb_iff hv hp
      · have hv' : isVerb tag = false := by simpa using hv
        have hself := Tagger.toggledWord_of_noVerb hp hv'
        simp [hself, hv', word.accepted, Tagger.getTags_again htag]

/-- `sammelst` is turned into `sam1le`, and this into `sam1lst`. -/
theorem toggle_sammelst :
    ¬ (Tagger.mk (togglemapOf ["bin,bist\n".toList]) fun _ => some none).TogglesBack
      ⟨"sammelst".toList, some ⟨some "v".toList, none⟩, by decide⟩ := by
  rintro ⟨toggled, twice, h, h', hback, _⟩
  obtain ⟨tag, htag, hword, rfl⟩ := Tagger.toggle_eq_some.mp h
  obtain ⟨tag', htag', hword', rfl⟩ := Tagger.toggle_eq_some.mp h'
  rw [← Option.some.inj htag] at htag' hword
  have htoggled : toggled.word = "sam1le".toList := hword.trans (by decide)
  rw [hback, htoggled, ← Option.some.inj htag'] at hword'
  revert hword'
  decide

end Freehal.Pos.Toggling
