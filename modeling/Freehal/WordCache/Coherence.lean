import Mathlib.Data.List.Forall2
import Freehal.WordCache.Objects

/-!
# Coherent caches

The cache of an object is coherent if it holds the words of the leaves that the object has now.
-/

namespace Freehal.WordCache

open Freehal.Xml (JString jchar jtext)
open Freehal.Lib
open Freehal.Reasoning (ListClass SynonymProvider XmlObj newWord wordOf getWordsAll)

variable {w w' : WordObjects}

/-! ## The words of the leaves -/

def wordsOf (text : JString) : List JString := if text.length > 0 then [text] else []

mutual
def CachedObj.leafWords : CachedObj → List JString
  | .word _ text _ => wordsOf text
  | .list _ name embedded _ => if name ≠ jtext "truth" then leafWordsAll embedded else []

def leafWordsAll : List CachedObj → List JString
  | [] => []
  | e :: embedded => e.leafWords ++ leafWordsAll embedded
end

theorem leafWordsAll_append (os os' : List CachedObj) :
    leafWordsAll (os ++ os') = leafWordsAll os ++ leafWordsAll os' := by
  induction os with
  | nil => rfl
  | cons e os ih => simp [leafWordsAll, ih]

/-- The text of a word. -/
def Fine (text : JString) : Prop := newWord text = some text

/-! ## Coherence -/

/-- The words in a cache have these texts. -/
def Shows (w : WordObjects) (cs : List Nat) (words : List JString) : Prop :=
  List.Forall₂ (fun c word => w[c]? = some word) cs words

/-- So do they if there are any. -/
def Holds (w : WordObjects) (cache : Option (List Nat)) (words : List JString) : Prop :=
  ∀ cs, cache = some cs → Shows w cs words

mutual
/-- All caches of a tree are coherent, and no text of it throws. -/
def CachedObj.Coherent (w : WordObjects) : CachedObj → Prop
  | .word _ text cs => Fine text ∧ Holds w cs (wordsOf text)
  | .list _ name embedded cs =>
      CoherentAll w embedded ∧ Holds w cs (if name ≠ jtext "truth" then leafWordsAll embedded else [])

def CoherentAll (w : WordObjects) : List CachedObj → Prop
  | [] => True
  | e :: embedded => e.Coherent w ∧ CoherentAll w embedded
end

theorem coherentAll_iff {os : List CachedObj} : CoherentAll w os ↔ ∀ o ∈ os, o.Coherent w := by
  induction os with
  | nil => simp [CoherentAll]
  | cons e os ih => simp [CoherentAll, ih]

theorem coherentAll_append {os os' : List CachedObj} :
    CoherentAll w (os ++ os') ↔ CoherentAll w os ∧ CoherentAll w os' := by
  simp only [coherentAll_iff, List.mem_append, or_imp, forall_and]

theorem holds_none (w : WordObjects) (words : List JString) : Holds w none words := by
  intro cs h
  cases h

theorem holds_some {cs : List Nat} {words : List JString} :
    Holds w (some cs) words ↔ Shows w cs words :=
  ⟨fun h => h cs rfl, fun h _ hcs => Option.some.inj hcs ▸ h⟩

/-- The words of the caches are there. -/
theorem CachedObj.Coherent.holds {o : CachedObj} (h : o.Coherent w) :
    Holds w o.cacheWords o.leafWords := by
  cases o with
  | word isVariable text cs => exact h.2
  | list cls name embedded cs => exact h.2

/-! ## More words -/

theorem Shows.mono {cs : List Nat} {words : List JString} (hw : w <+: w') (h : Shows w cs words) :
    Shows w' cs words := by
  obtain ⟨v, rfl⟩ := hw
  refine h.imp fun c word hc => ?_
  obtain ⟨hlt, -⟩ := List.getElem?_eq_some_iff.mp hc
  rw [List.getElem?_append_left hlt, hc]

theorem Holds.mono {cache : Option (List Nat)} {words : List JString} (hw : w <+: w')
    (h : Holds w cache words) : Holds w' cache words :=
  fun cs hcs => (h cs hcs).mono hw

mutual
theorem coherent_mono (hw : w <+: w') (o : CachedObj) (h : o.Coherent w) : o.Coherent w' := by
  cases o with
  | word isVariable text cs => exact ⟨h.1, h.2.mono hw⟩
  | list cls name embedded cs => exact ⟨coherentAll_mono hw embedded h.1, h.2.mono hw⟩

theorem coherentAll_mono (hw : w <+: w') (os : List CachedObj) (h : CoherentAll w os) :
    CoherentAll w' os := by
  cases os with
  | nil => trivial
  | cons e os => exact ⟨coherent_mono hw e h.1, coherentAll_mono hw os h.2⟩
end

/-! ## Finding the words -/

/-- What `prepareWords` leaves of an object. -/
structure Prepared (o : CachedObj) (w : WordObjects) (m : Call CachedObj) : Prop where
  returned : m.returned = true
  words : w <+: m.words
  coherent : m.value.Coherent m.words
  leafWords : m.value.leafWords = o.leafWords
  shows : Shows m.words m.value.cached o.leafWords

/-- And of the embedded objects. -/
structure PreparedAll (os : List CachedObj) (w : WordObjects) (m : Call (List CachedObj × List Nat)) :
    Prop where
  returned : m.returned = true
  words : w <+: m.words
  coherent : CoherentAll m.words m.value.1
  leafWords : leafWordsAll m.value.1 = leafWordsAll os
  shows : Shows m.words m.value.2 (leafWordsAll os)

theorem prepared_of_cached {o : CachedObj} {cs : List Nat} (h : o.Coherent w)
    (hcs : o.cacheWords = some cs) : Prepared o w ⟨o, w, true⟩ := by
  refine ⟨rfl, List.prefix_refl w, h, rfl, ?_⟩
  rw [CachedObj.cached, hcs]
  exact h.holds cs hcs

mutual
theorem prepareWords_prepared (o : CachedObj) (w : WordObjects) (h : o.Coherent w) :
    Prepared o w (o.prepareWords w) := by
  cases o with
  | word isVariable text cs =>
      cases cs with
      | some cs => exact prepared_of_cached h rfl
      | none =>
          have hfine : newWord text = some text := h.1
          rw [CachedObj.prepareWords]
          split
          · next hpos =>
              have hshows : Shows (w ++ [text]) [w.length] (wordsOf text) := by
                rw [wordsOf, if_pos hpos]
                exact .cons (by simp) .nil
              rw [hfine]
              exact ⟨rfl, List.prefix_append _ _, ⟨h.1, holds_some.mpr hshows⟩, rfl, hshows⟩
          · next hzero =>
              have hshows : Shows w [] (wordsOf text) := by
                rw [wordsOf, if_neg hzero]
                exact .nil
              exact ⟨rfl, List.prefix_refl w, ⟨h.1, holds_some.mpr hshows⟩, rfl, hshows⟩
  | list cls name embedded cs =>
      cases cs with
      | some cs => exact prepared_of_cached h rfl
      | none =>
          rw [CachedObj.prepareWords]
          split
          · next hname =>
              have hall := prepareAll_prepared embedded w h.1
              refine ⟨hall.returned, hall.words, ⟨hall.coherent, holds_some.mpr ?_⟩, ?_, ?_⟩
              · rw [if_pos hname, hall.leafWords]
                exact hall.shows
              · rw [CachedObj.leafWords, CachedObj.leafWords, hall.leafWords]
              · rw [CachedObj.leafWords, if_pos hname]
                exact hall.shows
          · next hname =>
              refine ⟨rfl, List.prefix_refl w, ⟨h.1, holds_some.mpr ?_⟩, rfl, ?_⟩
              · rw [if_neg hname]
                exact .nil
              · rw [CachedObj.leafWords, if_neg hname]
                exact .nil

theorem prepareAll_prepared (os : List CachedObj) (w : WordObjects) (h : CoherentAll w os) :
    PreparedAll os w (prepareAll os w) := by
  cases os with
  | nil => exact ⟨rfl, List.prefix_refl w, trivial, rfl, .nil⟩
  | cons e os =>
      have he := prepareWords_prepared e w h.1
      have hrest := prepareAll_prepared os _ (coherentAll_mono he.words os h.2)
      rw [prepareAll, he.returned]
      exact {
        returned := hrest.returned
        words := he.words.trans hrest.words
        coherent := ⟨coherent_mono hrest.words _ he.coherent, hrest.coherent⟩
        leafWords := by
          simp only [if_true, leafWordsAll, he.leafWords, hrest.leafWords]
        shows := List.rel_append (he.shows.mono hrest.words) hrest.shows }
end

/-- Where the caches are coherent, `getWords` gives the words of the leaves. -/
theorem getWords_of_coherent {o : CachedObj} (h : o.Coherent w) :
    o.getWords w = some o.leafWords := by
  have hm := prepareWords_prepared o w h
  have htexts : (o.prepareWords w).value.cached.map (textOf (o.prepareWords w).words) =
      o.leafWords := by
    refine List.forall₂_eq_eq_eq ▸ List.forall₂_map_left_iff.mpr (hm.shows.imp fun c word hc => ?_)
    rw [textOf, List.getD_eq_getElem?_getD, hc, Option.getD_some]
  rw [CachedObj.getWords]
  simp only [hm.returned, if_true, htexts]

mutual
/-- The words of the leaves are those that are found without caches. -/
theorem getWords_toXml (o : CachedObj) (h : o.Coherent w) : o.toXml.getWords = some o.leafWords := by
  cases o with
  | word isVariable text cs =>
      have hfine : newWord text = some text := h.1
      have hwords : wordOf text = some (wordsOf text) := by
        unfold wordOf wordsOf
        split <;> simp [hfine]
      cases isVariable with
      | true => simpa [CachedObj.toXml, XmlObj.getWords, CachedObj.leafWords] using hwords
      | false => simpa [CachedObj.toXml, XmlObj.getWords, CachedObj.leafWords] using hwords
  | list cls name embedded cs =>
      rw [CachedObj.toXml, XmlObj.getWords, CachedObj.leafWords, getWordsAll_toXml embedded h.1]
      split <;> rfl

theorem getWordsAll_toXml (os : List CachedObj) (h : CoherentAll w os) :
    getWordsAll (toXmlAll os) = some (leafWordsAll os) := by
  cases os with
  | nil => rfl
  | cons e os =>
      simp [toXmlAll, getWordsAll, leafWordsAll, getWords_toXml e h.1, getWordsAll_toXml os h.2]
end

end Freehal.WordCache
