import Freehal.WordCache.Coherence

/-!
# Toggling

`toggle` sets the `Word` objects of a leaf, which the caches of the lists above it share, and resets
the cache of the leaf. From then on the leaf has other `Word` objects than the lists.
-/

namespace Freehal.WordCache

open Freehal.Xml (JString jchar jtext)
open Freehal.Lib
open Freehal.Reasoning (ListClass newWord)

section

variable (tagger : JString → JString)

/-! ## What is toggled -/

/-- The word of a leaf is another one afterwards. -/
def changes (text : JString) : Bool := text.length > 0 && tagger text ≠ text

mutual
/-- The `Word` objects of the leaves that are changed. -/
def CachedObj.toggledWords : CachedObj → List Nat
  | .word _ text cs => if changes tagger text then cs.getD [] else []
  | .list _ _ embedded _ => toggledWordsAll embedded

def toggledWordsAll : List CachedObj → List Nat
  | [] => []
  | e :: embedded => e.toggledWords ++ toggledWordsAll embedded
end

mutual
/-- No leaf gets a text that throws. -/
def CachedObj.ToggledFine : CachedObj → Prop
  | .word _ text _ => changes tagger text = true → Fine (tagger text)
  | .list _ _ embedded _ => ToggledFineAll embedded

def ToggledFineAll : List CachedObj → Prop
  | [] => True
  | e :: embedded => e.ToggledFine ∧ ToggledFineAll embedded
end

/-- The words of the leaves, with whether the object that is toggled has them. -/
def scopeWords : List Nat → CachedObj → List (JString × Bool)
  | [], o => o.leafWords.map (·, true)
  | i :: path, .list _ name embedded _ =>
      if name ≠ jtext "truth" then
        match embedded[i]? with
        | some e =>
            (leafWordsAll (embedded.take i)).map (·, false) ++
              (scopeWords path e ++ (leafWordsAll (embedded.drop (i + 1))).map (·, false))
        | none => (leafWordsAll embedded).map (·, false)
      else []
  | _ :: _, .word _ text _ => (wordsOf text).map (·, false)

/-- The words after the toggling. -/
def toggledTexts (words : List (JString × Bool)) : List JString :=
  words.flatMap fun word => if word.2 then wordsOf (tagger word.1) else [word.1]

variable (toggled : List Nat)

/-- The toggled `Word` objects stand in a cache where the leaves are that are changed, none of which
loses its word. -/
def HeldBy (cs : List Nat) (words : List (JString × Bool)) : Prop :=
  List.Forall₂ (fun c word => (c ∈ toggled ↔ word.2 = true ∧ tagger word.1 ≠ word.1) ∧
    (word.2 = true → (tagger word.1).length > 0)) cs words

mutual
/-- So they do in all caches of an object that is toggled, or that is not. -/
def CachedObj.Held (scope : Bool) : CachedObj → Prop
  | .word _ text cs => scope = true ∧ changes tagger text = true ∨ ∀ c ∈ cs.getD [], c ∉ toggled
  | .list cls name embedded cs =>
      HeldAll scope embedded ∧ ∀ c, cs = some c →
        HeldBy tagger toggled c ((CachedObj.list cls name embedded cs).leafWords.map (·, scope))

def HeldAll (scope : Bool) : List CachedObj → Prop
  | [] => True
  | e :: embedded => e.Held scope ∧ HeldAll scope embedded
end

/-- And in all caches of a tree. -/
def HeldAt : List Nat → CachedObj → Prop
  | [], o => o.Held tagger toggled true
  | i :: path, .list cls name embedded cs =>
      (∀ c, cs = some c →
          HeldBy tagger toggled c (scopeWords (i :: path) (.list cls name embedded cs))) ∧
        (∀ e, embedded[i]? = some e → HeldAt path e) ∧
          HeldAll tagger toggled false (embedded.take i) ∧
            HeldAll tagger toggled false (embedded.drop (i + 1))
  | _ :: _, .word isVariable text cs => (CachedObj.word isVariable text cs).Held tagger toggled false

/-! ## Words that were toggled -/

/-- Of the words that there were, these are toggled. -/
structure During (w : WordObjects) (done : List Nat) (w' : WordObjects) : Prop where
  length : w.length ≤ w'.length
  words : ∀ c word, w[c]? = some word → w'[c]? = some (if c ∈ done then tagger word else word)

variable {tagger toggled} {w w₁ w' : WordObjects}

theorem During.refl (w : WordObjects) : During tagger w [] w :=
  ⟨Nat.le_refl _, fun c word h => by simp [h]⟩

theorem toggledTexts_append (words words' : List (JString × Bool)) :
    toggledTexts tagger (words ++ words') =
      toggledTexts tagger words ++ toggledTexts tagger words' := by
  simp [toggledTexts]

theorem toggledTexts_unscoped (words : List JString) :
    toggledTexts tagger (words.map (·, false)) = words := by
  simp [toggledTexts, List.flatMap_map]

theorem toggledTexts_leaf (text : JString) :
    toggledTexts tagger ((wordsOf text).map (·, true)) =
      if text.length > 0 then wordsOf (tagger text) else [] := by
  rw [wordsOf]
  split <;> simp [toggledTexts]

theorem map_fst_scope (words : List JString) (scope : Bool) :
    (words.map (·, scope)).map Prod.fst = words := by
  simp [Function.comp_def]

/-- A cache that holds the toggled words holds the words after the toggling. -/
theorem HeldBy.shows {cs : List Nat} {words : List (JString × Bool)}
    (h : HeldBy tagger toggled cs words) (hshows : Shows w cs (words.map Prod.fst))
    (hduring : During tagger w toggled w') : Shows w' cs (toggledTexts tagger words) := by
  induction h with
  | nil => exact .nil
  | @cons c word cs words hc _ ih =>
      obtain ⟨text, scope⟩ := word
      cases hshows with
      | cons hword hrest =>
          have hword' := hduring.words c text hword
          have hall := ih hrest
          cases scope with
          | false =>
              have hno : c ∉ toggled := fun hmem => by simpa using hc.1.mp hmem
              rw [if_neg hno] at hword'
              exact .cons hword' hall
          | true =>
              have htexts : toggledTexts tagger ((text, true) :: words) =
                  tagger text :: toggledTexts tagger words := by
                simp [toggledTexts, wordsOf, hc.2 rfl]
              rw [htexts]
              refine .cons ?_ hall
              by_cases hsame : tagger text = text
              · have hno : c ∉ toggled := fun hmem => (hc.1.mp hmem).2 hsame
                rw [hword', if_neg hno, hsame]
              · rw [hword', if_pos (hc.1.mpr ⟨rfl, hsame⟩)]

mutual
/-- What is not toggled stays coherent. -/
theorem coherent_of_held (hduring : During tagger w toggled w') (o : CachedObj)
    (h : o.Coherent w) (hheld : o.Held tagger toggled false) : o.Coherent w' := by
  cases o with
  | word isVariable text cs =>
      refine ⟨h.1, fun c hc => ?_⟩
      have hno := hheld.resolve_left (by simp)
      obtain rfl := hc
      refine ((List.forall₂_and_left _ _).mpr ⟨fun c hc => hno c hc, h.2 c rfl⟩).imp ?_
      rintro c word ⟨hno, hword⟩
      rw [hduring.words c word hword, if_neg hno]
  | list cls name embedded cs =>
      refine ⟨coherentAll_of_held hduring embedded h.1 hheld.1, fun c hc => ?_⟩
      have hshows := (hheld.2 c hc).shows ((map_fst_scope _ false).symm ▸ h.holds c hc) hduring
      rwa [toggledTexts_unscoped] at hshows

theorem coherentAll_of_held (hduring : During tagger w toggled w') (os : List CachedObj)
    (h : CoherentAll w os) (hheld : HeldAll tagger toggled false os) : CoherentAll w' os := by
  cases os with
  | nil => trivial
  | cons e os =>
      exact ⟨coherent_of_held hduring e h.1 hheld.1, coherentAll_of_held hduring os h.2 hheld.2⟩
end

/-! ## Toggling an object -/

/-- What `toggle` leaves of an object. Words are toggled one after the other, and the caches are
coherent again when all of them are. -/
structure ToggledObj (tagger : JString → JString) (toggled : List Nat) (w : WordObjects)
    (o : CachedObj) (done : List Nat) (w₁ : WordObjects) (m : Call (CachedObj × Bool)) : Prop where
  returned : m.returned = true
  during : During tagger w (done ++ o.toggledWords tagger) m.words
  length : w₁.length ≤ m.words.length
  fresh : ∀ c, w.length ≤ c → c < w₁.length → m.words[c]? = w₁[c]?
  leafWords : m.value.1.leafWords = toggledTexts tagger (o.leafWords.map (·, true))
  coherent : ∀ w', During tagger w toggled w' →
    (∀ c, w.length ≤ c → c < m.words.length → w'[c]? = m.words[c]?) → m.value.1.Coherent w'

/-- The loop over the one word of a leaf. -/
theorem toggle_leaf {isVariable : Bool} {text : JString} {cs : Option (List Nat)} {c : Nat}
    (hm : (CachedObj.word isVariable text cs).prepareWords w₁ =
      ⟨.word isVariable text (some [c]), w', true⟩) (hc : w'[c]? = some text)
    (hfine : tagger text ≠ text → Fine (tagger text)) :
    (CachedObj.word isVariable text cs).toggle tagger w₁ =
      if tagger text ≠ text then
        ⟨(.word isVariable (tagger text) none, true), w'.set c (tagger text), true⟩
      else ⟨(.word isVariable text (some [c]), false), w', true⟩ := by
  have htext : textOf w' c = text := by
    rw [textOf, List.getD_eq_getElem?_getD, hc, Option.getD_some]
  obtain ⟨hlt, -⟩ := List.getElem?_eq_some_iff.mp hc
  rw [CachedObj.toggle, hm]
  simp only [CachedObj.cached, CachedObj.cacheWords, Option.getD_some, toggleWords, htext, if_true]
  split
  · next hne =>
      have hword : newWord (tagger text) = some (tagger text) := hfine hne
      simp [hword, textOf, List.getD_eq_getElem?_getD, hlt]
  · simp

theorem During.append {done : List Nat} (h : During tagger w done w₁) (v : WordObjects) :
    During tagger w done (w₁ ++ v) := by
  refine ⟨by rw [List.length_append]; exact Nat.le_add_right_of_le h.length, fun c word hc => ?_⟩
  have hword := h.words c word hc
  obtain ⟨hlt, -⟩ := List.getElem?_eq_some_iff.mp hword
  rw [List.getElem?_append_left hlt, hword]

/-- A word that is none of the old ones is set. -/
theorem During.set_new {done : List Nat} (h : During tagger w done w₁) {c : Nat}
    (hc : w.length ≤ c) (text : JString) : During tagger w done (w₁.set c text) := by
  refine ⟨by rw [List.length_set]; exact h.length, fun d word hd => ?_⟩
  obtain ⟨hlt, -⟩ := List.getElem?_eq_some_iff.mp hd
  rw [List.getElem?_set_ne (by omega), h.words d word hd]

/-- An old word is toggled. -/
theorem During.set_old {done : List Nat} (h : During tagger w done w₁) {c : Nat} {text : JString}
    (hc : w[c]? = some text) : During tagger w (done ++ [c]) (w₁.set c (tagger text)) := by
  refine ⟨by rw [List.length_set]; exact h.length, fun d word hd => ?_⟩
  by_cases hcd : c = d
  · subst hcd
    obtain rfl : text = word := Option.some.inj (hc.symm.trans hd)
    obtain ⟨hlt, -⟩ := List.getElem?_eq_some_iff.mp hc
    have hlt' := Nat.lt_of_lt_of_le hlt h.length
    simp [hlt']
  · have hmem : d ∈ done ++ [c] ↔ d ∈ done := by simp [Ne.symm hcd]
    rw [List.getElem?_set_ne hcd, h.words d word hd, if_congr hmem rfl rfl]

theorem changes_iff {text : JString} (hpos : text.length > 0) :
    changes tagger text = true ↔ tagger text ≠ text := by
  simp [changes, hpos]

/-- A leaf without a text has no words to toggle. -/
theorem toggle_empty {isVariable : Bool} {text : JString} {cs : Option (List Nat)} {done : List Nat}
    (h : (CachedObj.word isVariable text cs).Coherent w) (hzero : ¬ text.length > 0)
    (hduring : During tagger w done w₁) :
    ToggledObj tagger toggled w (.word isVariable text cs) done w₁
      ((CachedObj.word isVariable text cs).toggle tagger w₁) := by
  have hwords : wordsOf text = [] := if_neg hzero
  have hm : (CachedObj.word isVariable text cs).prepareWords w₁ =
      ⟨.word isVariable text (some []), w₁, true⟩ := by
    cases cs with
    | none => rw [CachedObj.prepareWords, if_neg hzero]
    | some cs =>
        have hshows := h.2 cs rfl
        rw [hwords] at hshows
        obtain rfl := List.forall₂_nil_right_iff.mp hshows
        rfl
  have hchanges : changes tagger text = false := by simp [changes, hzero]
  have htoggle : (CachedObj.word isVariable text cs).toggle tagger w₁ =
      ⟨(.word isVariable text (some []), false), w₁, true⟩ := by
    rw [CachedObj.toggle, hm]
    simp [CachedObj.cached, CachedObj.cacheWords, toggleWords]
  rw [htoggle]
  exact {
    returned := rfl
    during := by simpa [CachedObj.toggledWords, hchanges] using hduring
    length := Nat.le_refl _
    fresh := fun _ _ _ => rfl
    leafWords := by
      rw [CachedObj.leafWords, CachedObj.leafWords, toggledTexts_leaf, if_neg hzero, hwords]
    coherent := fun w' _ _ => ⟨h.1, holds_some.mpr (hwords.symm ▸ .nil)⟩ }

/-- A leaf with the `Word` object `c`, an old one or a new one. -/
theorem toggle_word {isVariable : Bool} {text : JString} {cs : Option (List Nat)}
    {done : List Nat} {c : Nat} {w₂ : WordObjects}
    (h : (CachedObj.word isVariable text cs).Coherent w) (hpos : text.length > 0)
    (hfine : (CachedObj.word isVariable text cs).ToggledFine tagger)
    (hm : (CachedObj.word isVariable text cs).prepareWords w₁ =
      ⟨.word isVariable text (some [c]), w₂, true⟩) (hc : w₂[c]? = some text)
    (hlength : w₁.length ≤ w₂.length)
    (hfresh : ∀ d, w.length ≤ d → d < w₁.length → w₂[d]? = w₁[d]? ∧ d ≠ c)
    (hset : tagger text ≠ text → During tagger w
      (done ++ (CachedObj.word isVariable text cs).toggledWords tagger) (w₂.set c (tagger text)))
    (hkeep : tagger text = text → During tagger w
      (done ++ (CachedObj.word isVariable text cs).toggledWords tagger) w₂)
    (hshows : tagger text = text → ∀ w', During tagger w toggled w' →
      (∀ d, w.length ≤ d → d < w₂.length → w'[d]? = w₂[d]?) → w'[c]? = some text) :
    ToggledObj tagger toggled w (.word isVariable text cs) done w₁
      ((CachedObj.word isVariable text cs).toggle tagger w₁) := by
  rw [toggle_leaf hm hc fun hne => hfine ((changes_iff hpos).mpr hne)]
  by_cases hsame : tagger text = text
  · rw [if_neg (not_not.mpr hsame)]
    exact {
      returned := rfl
      during := hkeep hsame
      length := hlength
      fresh := fun d hd hlt => (hfresh d hd hlt).1
      leafWords := by
        rw [CachedObj.leafWords, CachedObj.leafWords, toggledTexts_leaf, if_pos hpos, hsame]
      coherent := fun w' hw' hnew => by
        refine ⟨h.1, holds_some.mpr ?_⟩
        rw [wordsOf, if_pos hpos]
        exact .cons (hshows hsame w' hw' hnew) .nil }
  · rw [if_pos hsame]
    exact {
      returned := rfl
      during := hset hsame
      length := by rw [List.length_set]; exact hlength
      fresh := fun d hd hlt => by
        obtain ⟨heq, hne⟩ := hfresh d hd hlt
        rw [List.getElem?_set_ne (Ne.symm hne), heq]
      leafWords := by
        rw [CachedObj.leafWords, CachedObj.leafWords, toggledTexts_leaf, if_pos hpos]
      coherent := fun w' _ _ => ⟨hfine ((changes_iff hpos).mpr hsame), holds_none _ _⟩ }

theorem toggle_cached {isVariable : Bool} {text : JString} {cs : List Nat} {done : List Nat}
    (h : (CachedObj.word isVariable text (some cs)).Coherent w) (hpos : text.length > 0)
    (hheld : (CachedObj.word isVariable text (some cs)).Held tagger toggled true)
    (hfine : (CachedObj.word isVariable text (some cs)).ToggledFine tagger)
    (hnodup : (done ++ (CachedObj.word isVariable text (some cs)).toggledWords tagger).Nodup)
    (hdone : ∀ c ∈ done, c ∈ toggled) (hduring : During tagger w done w₁) :
    ToggledObj tagger toggled w (.word isVariable text (some cs)) done w₁
      ((CachedObj.word isVariable text (some cs)).toggle tagger w₁) := by
  obtain ⟨c, rfl, hword⟩ : ∃ c, cs = [c] ∧ w[c]? = some text := by
    have hshows := h.2 cs rfl
    rw [wordsOf, if_pos hpos] at hshows
    obtain ⟨c, cs', hword, hnil, rfl⟩ := List.forall₂_cons_right_iff.mp hshows
    obtain rfl := List.forall₂_nil_right_iff.mp hnil
    exact ⟨c, rfl, hword⟩
  obtain ⟨hlt, -⟩ := List.getElem?_eq_some_iff.mp hword
  have hchanged : tagger text ≠ text →
      (CachedObj.word isVariable text (some [c])).toggledWords tagger = [c] := fun hne => by
    simp [CachedObj.toggledWords, (changes_iff hpos).mpr hne]
  have hunchanged : tagger text = text → c ∉ toggled := fun hsame =>
    (hheld.resolve_left fun hchanges => (changes_iff hpos).mp hchanges.2 hsame) c (by simp)
  have hnot : c ∉ done := by
    by_cases hsame : tagger text = text
    · exact fun hmem => hunchanged hsame (hdone c hmem)
    · rw [hchanged hsame] at hnodup
      exact fun hmem => (List.nodup_append.mp hnodup).2.2 c hmem c (by simp) rfl
  have hnow : w₁[c]? = some text := by
    rw [hduring.words c text hword, if_neg hnot]
  refine toggle_word h hpos hfine rfl hnow (Nat.le_refl _) (fun d hd _ => ⟨rfl, by omega⟩) ?_ ?_ ?_
  · intro hne
    rw [hchanged hne]
    exact hduring.set_old hword
  · intro hsame
    simpa [CachedObj.toggledWords, changes, hsame] using hduring
  · intro hsame w' hw' _
    rw [hw'.words c text hword, if_neg (hunchanged hsame)]

theorem toggle_uncached {isVariable : Bool} {text : JString} {done : List Nat}
    (h : (CachedObj.word isVariable text none).Coherent w) (hpos : text.length > 0)
    (hfine : (CachedObj.word isVariable text none).ToggledFine tagger)
    (hduring : During tagger w done w₁) :
    ToggledObj tagger toggled w (.word isVariable text none) done w₁
      ((CachedObj.word isVariable text none).toggle tagger w₁) := by
  have hm : (CachedObj.word isVariable text none).prepareWords w₁ =
      ⟨.word isVariable text (some [w₁.length]), w₁ ++ [text], true⟩ := by
    have hword : newWord text = some text := h.1
    rw [CachedObj.prepareWords, if_pos hpos, hword]
  have hnone : (CachedObj.word isVariable text none).toggledWords tagger = [] := by
    simp [CachedObj.toggledWords]
  have hlength : w₁.length ≤ (w₁ ++ [text]).length := by simp
  refine toggle_word h hpos hfine hm (by simp) hlength ?_ ?_ ?_ ?_
  · exact fun d _ hlt => ⟨List.getElem?_append_left hlt, by omega⟩
  · intro _
    rw [hnone, List.append_nil]
    exact (hduring.append [text]).set_new hduring.length _
  · intro _
    rw [hnone, List.append_nil]
    exact hduring.append [text]
  · intro _ w' _ hnew
    rw [hnew w₁.length hduring.length (by simp)]
    simp

/-- What it leaves of the objects that a list embeds. -/
structure ToggledAll (tagger : JString → JString) (toggled : List Nat) (w : WordObjects)
    (os : List CachedObj) (done : List Nat) (w₁ : WordObjects)
    (m : Call (List CachedObj × Bool)) : Prop where
  returned : m.returned = true
  during : During tagger w (done ++ toggledWordsAll tagger os) m.words
  length : w₁.length ≤ m.words.length
  fresh : ∀ c, w.length ≤ c → c < w₁.length → m.words[c]? = w₁[c]?
  leafWords : leafWordsAll m.value.1 = toggledTexts tagger ((leafWordsAll os).map (·, true))
  coherent : ∀ w', During tagger w toggled w' →
    (∀ c, w.length ≤ c → c < m.words.length → w'[c]? = m.words[c]?) → CoherentAll w' m.value.1

mutual
theorem toggle_toggled (o : CachedObj) (done : List Nat) (w₁ : WordObjects) (h : o.Coherent w)
    (hheld : o.Held tagger toggled true) (hfine : o.ToggledFine tagger)
    (hnodup : (done ++ o.toggledWords tagger).Nodup)
    (hsub : ∀ c ∈ done ++ o.toggledWords tagger, c ∈ toggled) (hduring : During tagger w done w₁) :
    ToggledObj tagger toggled w o done w₁ (o.toggle tagger w₁) := by
  cases o with
  | word isVariable text cs =>
      have hdone : ∀ c ∈ done, c ∈ toggled := fun c hc => hsub c (List.mem_append_left _ hc)
      by_cases hpos : text.length > 0
      · cases cs with
        | some cs => exact toggle_cached h hpos hheld hfine hnodup hdone hduring
        | none => exact toggle_uncached h hpos hfine hduring
      · exact toggle_empty h hpos hduring
  | list cls name embedded cs =>
      have hall := toggleAll_toggled embedded done w₁ h.1 hheld.1 hfine hnodup hsub hduring
      rw [CachedObj.toggle]
      generalize toggleAll tagger embedded w₁ = m at hall ⊢
      have hwords : (CachedObj.list cls name m.value.1 cs).leafWords = toggledTexts tagger
          ((CachedObj.list cls name embedded cs).leafWords.map (·, true)) := by
        rw [CachedObj.leafWords, CachedObj.leafWords, hall.leafWords]
        split <;> rfl
      exact {
        returned := hall.returned
        during := hall.during
        length := hall.length
        fresh := hall.fresh
        leafWords := hwords
        coherent := fun w' hw' hnew => by
          refine ⟨hall.coherent w' hw' hnew, fun c hc => ?_⟩
          have hshows := (hheld.2 c hc).shows ((map_fst_scope _ true).symm ▸ h.holds c hc) hw'
          rw [← hwords] at hshows
          exact hshows }

theorem toggleAll_toggled (os : List CachedObj) (done : List Nat) (w₁ : WordObjects)
    (h : CoherentAll w os) (hheld : HeldAll tagger toggled true os)
    (hfine : ToggledFineAll tagger os) (hnodup : (done ++ toggledWordsAll tagger os).Nodup)
    (hsub : ∀ c ∈ done ++ toggledWordsAll tagger os, c ∈ toggled)
    (hduring : During tagger w done w₁) :
    ToggledAll tagger toggled w os done w₁ (toggleAll tagger os w₁) := by
  cases os with
  | nil =>
      exact ⟨rfl, by simpa [toggledWordsAll, toggleAll] using hduring, Nat.le_refl _, fun _ _ _ => rfl, rfl,
        fun _ _ _ => trivial⟩
  | cons e os =>
      rw [toggledWordsAll, ← List.append_assoc] at hnodup hsub
      have he := toggle_toggled e done w₁ h.1 hheld.1 hfine.1
        (List.nodup_append.mp hnodup).1 (fun c hc => hsub c (List.mem_append_left _ hc)) hduring
      have hrest := toggleAll_toggled os (done ++ e.toggledWords tagger) _ h.2 hheld.2 hfine.2
        hnodup hsub he.during
      rw [toggleAll, he.returned]
      exact {
        returned := hrest.returned
        during := by
          rw [toggledWordsAll, ← List.append_assoc]
          exact hrest.during
        length := Nat.le_trans he.length hrest.length
        fresh := fun c hc hlt => by
          rw [← he.fresh c hc hlt]
          exact hrest.fresh c hc (Nat.lt_of_lt_of_le hlt he.length)
        leafWords := by
          simp only [if_true, leafWordsAll, he.leafWords, hrest.leafWords, List.map_append,
            toggledTexts_append]
        coherent := fun w' hw' hnew => by
          refine ⟨he.coherent w' hw' fun c hc hlt => ?_, hrest.coherent w' hw' hnew⟩
          rw [← hrest.fresh c hc hlt]
          exact hnew c hc (Nat.lt_of_lt_of_le hlt hrest.length) }
end

end

end Freehal.WordCache
