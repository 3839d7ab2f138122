import Freehal.WordCache.Coherence

/-!
# Insertions

What `add`, `addAll`, `insertSynonyms` and `insertVariables` do to the caches of the object on
which they are called, and to the words of its leaves.
-/

namespace Freehal.WordCache

open Freehal.Xml (JString jtext)
open Freehal.Lib
open Freehal.Reasoning (ListClass SynonymProvider)

variable {w : WordObjects}

/-- A call has made new words only, and the caches of its object are coherent. -/
structure Kept (w : WordObjects) (m : CachedObj × WordObjects) : Prop where
  words : w <+: m.2
  coherent : m.1.Coherent m.2

/-! ## Adding -/

theorem addEach_kept {o : CachedObj} {os : List CachedObj} (h : o.Coherent w)
    (hos : CoherentAll w os) (hcache : o.cacheWords = none ∨ (o.addEach os).leafWords = o.leafWords) :
    Kept w (o.addEach os, w) := by
  refine ⟨List.prefix_refl w, ?_⟩
  cases o with
  | word isVariable text cs => exact h
  | list cls name embedded cs =>
      refine ⟨coherentAll_append.mpr ⟨h.1, hos⟩, ?_⟩
      rcases hcache with hnone | hwords
      · obtain rfl : cs = none := hnone
        exact holds_none w _
      · have hholds := h.holds
        rw [← hwords] at hholds
        exact hholds

/-- The words stay if nothing is seen of what is added. -/
theorem leafWords_addEach {o : CachedObj} {os : List CachedObj}
    (h : leafWordsAll os = [] ∨ o.isTruth = true) : (o.addEach os).leafWords = o.leafWords := by
  cases o with
  | word isVariable text cs => rfl
  | list cls name embedded cs =>
      rw [CachedObj.addEach, CachedObj.leafWords, CachedObj.leafWords]
      rcases h with h | h
      · rw [leafWordsAll_append, h, List.append_nil]
      · have hname : ¬ name ≠ jtext "truth" := by simpa [CachedObj.isTruth] using h
        rw [if_neg hname, if_neg hname]

/-! ## Synonyms -/

section

variable (database : SynonymProvider)

/-- A word with synonyms that are no empty texts. -/
def CachedObj.hasSynonyms : CachedObj → Bool
  | .word false text _ => (database text).any (·.length > 0)
  | _ => false

/-- A word that has no first word. -/
def CachedObj.isEmptyWord : CachedObj → Bool
  | .word false text _ => text.length = 0
  | _ => false

/-- A text whose words get synonyms. -/
def CachedObj.textGains (e : CachedObj) : Bool :=
  !e.isTruth && e.getEmbedded.any (·.hasSynonyms database)

mutual
/-- Synonyms are inserted among the words of an object. -/
def CachedObj.gains : CachedObj → Bool
  | .list cls name embedded _ =>
      cls ≠ .xmlSynonyms && name ≠ jtext "truth" && gainsAll embedded
  | .word _ _ _ => false

def gainsAll : List CachedObj → Bool
  | [] => false
  | e :: embedded =>
      (if e.isText then e.textGains database else e.gains) || gainsAll embedded
end

mutual
/-- `insertSynonyms` comes to an empty word. -/
def CachedObj.fails : CachedObj → Bool
  | .list cls _ embedded _ => cls ≠ .xmlSynonyms && failsAll embedded
  | .word _ _ _ => false

def failsAll : List CachedObj → Bool
  | [] => false
  | e :: embedded =>
      (if e.isText then e.getEmbedded.any (·.isEmptyWord) else e.fails) || failsAll embedded
end

mutual
/-- No text whose words get synonyms has its words cached, and no list that gets them if the caches
of the lists are not reset. -/
def CachedObj.SynonymsKept (reset : Prop) : CachedObj → Prop
  | .list cls name embedded cs =>
      cls = .xmlSynonyms ∨
        (cs = none ∨ (CachedObj.list cls name embedded cs).gains database = false ∨ reset) ∧
          SynonymsKeptAll reset embedded
  | .word _ _ _ => True

def SynonymsKeptAll (reset : Prop) : List CachedObj → Prop
  | [] => True
  | e :: embedded =>
      (if e.isText then e.cacheWords = none ∨ e.textGains database = false
        else e.SynonymsKept reset) ∧ SynonymsKeptAll reset embedded
end

variable {database} (hdatabase : ∀ word, ∀ s ∈ database word, Fine s)

theorem wordsOf_nil {text : JString} (h : text.length = 0) : wordsOf text = [] :=
  if_neg (by omega)

theorem leafWordsAll_words (texts : List JString) :
    leafWordsAll (texts.map (.word false · none)) = texts.flatMap wordsOf := by
  induction texts with
  | nil => rfl
  | cons text texts ih => simp [leafWordsAll, CachedObj.leafWords, ih]

include hdatabase in
theorem newSynonyms_coherent {word : JString} (h : Fine word) :
    (newSynonyms database word).Coherent w := by
  refine ⟨coherentAll_iff.mpr fun o ho => ?_, holds_none w _⟩
  obtain ⟨text, htext, rfl⟩ := List.mem_map.mp ho
  refine ⟨?_, holds_none w _⟩
  rcases List.mem_cons.mp htext with rfl | htext
  · exact h
  · exact hdatabase word text htext

theorem leafWords_newSynonyms {text : JString} (cs : Option (List Nat))
    (h : (CachedObj.word false text cs).hasSynonyms database = false) :
    (newSynonyms database text).leafWords = wordsOf text := by
  have hempty : (database text).flatMap wordsOf = [] := by
    refine List.flatMap_eq_nil_iff.mpr fun s hs => wordsOf_nil ?_
    simpa using List.any_eq_false.mp h s hs
  have hname : jtext "synonyms" ≠ jtext "truth" := by decide
  rw [newSynonyms, CachedObj.leafWords, if_pos hname, leafWordsAll_words, List.flatMap_cons, hempty,
    List.append_nil]

/-- The first word of a word is its text. -/
theorem head_of_prepared {t : CachedObj} {text : JString} (ht : t.leafWords = wordsOf text)
    {m : Call CachedObj} (h : Prepared t w m) {c : Nat} (hc : m.value.cached.head? = some c) :
    textOf m.words c = text := by
  have hshows := h.shows
  rw [ht] at hshows
  cases hcached : m.value.cached with
  | nil =>
      rw [hcached] at hc
      cases hc
  | cons c' cs =>
      rw [hcached] at hc hshows
      obtain rfl := Option.some.inj hc
      unfold wordsOf at hshows
      split at hshows
      · cases hshows with
        | cons hword _ => rw [textOf, List.getD_eq_getElem?_getD, hword, Option.getD_some]
      · cases hshows

/-- The first word is there if the text is not empty. -/
theorem head_isSome {t : CachedObj} {text : JString} (ht : t.leafWords = wordsOf text)
    {m : Call CachedObj} (h : Prepared t w m) (hpos : text.length > 0) :
    ∃ c, m.value.cached.head? = some c := by
  have hshows := h.shows
  rw [ht, wordsOf, if_pos hpos] at hshows
  cases hcached : m.value.cached with
  | nil =>
      rw [hcached] at hshows
      cases hshows
  | cons c cs => exact ⟨c, rfl⟩

/-- The objects of a text after the loop, and what is inserted for them. -/
structure ToInsert (database : SynonymProvider) (os : List CachedObj) (w : WordObjects)
    (m : Call (List CachedObj × List CachedObj)) : Prop where
  words : w <+: m.words
  returned : (os.any (·.isEmptyWord)) = false → m.returned = true
  coherent : CoherentAll m.words m.value.1
  leafWords : leafWordsAll m.value.1 = leafWordsAll os
  inserted : m.returned = true → CoherentAll m.words m.value.2
  insertedWords : m.returned = true → (os.any (·.hasSynonyms database)) = false →
    leafWordsAll m.value.2 = leafWordsAll os

theorem isPlain_cases {t : CachedObj} (h : t.isPlain = true) :
    ∃ text cs, t = .word false text cs := by
  cases t with
  | word isVariable text cs =>
      cases isVariable with
      | true => cases h
      | false => exact ⟨text, cs, rfl⟩
  | list cls name embedded cs => cases h

include hdatabase in
theorem toInsertAll_toInsert (os : List CachedObj) (w : WordObjects) (h : CoherentAll w os) :
    ToInsert database os w (toInsertAll database os w) := by
  induction os generalizing w with
  | nil => exact ⟨List.prefix_refl w, fun _ => rfl, trivial, rfl, fun _ => trivial, fun _ _ => rfl⟩
  | cons t os ih =>
      rw [toInsertAll]
      cases hplain : t.isPlain with
      | false =>
          have hrest := ih w h.2
          rw [if_neg (by simp)]
          exact {
            words := hrest.words
            returned := fun hempty => hrest.returned (Bool.or_eq_false_iff.mp hempty).2
            coherent := ⟨coherent_mono hrest.words t h.1, hrest.coherent⟩
            leafWords := by simp only [leafWordsAll, hrest.leafWords]
            inserted := fun hret => ⟨coherent_mono hrest.words t h.1, hrest.inserted hret⟩
            insertedWords := fun hret hno => by
              have hno := (Bool.or_eq_false_iff.mp hno).2
              simp only [leafWordsAll, hrest.insertedWords hret hno] }
      | true =>
          obtain ⟨text, cs, rfl⟩ := isPlain_cases hplain
          have hm := prepareWords_prepared _ w h.1
          have hall := coherentAll_mono hm.words os h.2
          rw [if_pos rfl]
          simp only [hm.returned, if_true]
          cases hc : ((CachedObj.word false text cs).prepareWords w).value.cached.head? with
          | none =>
              refine ⟨hm.words, fun hempty => ?_, ⟨hm.coherent, hall⟩, ?_, nofun, nofun⟩
              · have hpos : text.length > 0 := by
                  have := (Bool.or_eq_false_iff.mp hempty).1
                  simp only [CachedObj.isEmptyWord, decide_eq_false_iff_not] at this
                  omega
                obtain ⟨c, hc'⟩ := head_isSome rfl hm hpos
                rw [hc] at hc'
                cases hc'
              · simp only [leafWordsAll, hm.leafWords]
          | some c =>
              have htext : textOf _ c = text := head_of_prepared rfl hm hc
              have hrest := ih _ hall
              have hnew : ∀ v, (newSynonyms database text).Coherent v :=
                fun v => newSynonyms_coherent hdatabase h.1.1
              simp only [htext]
              exact {
                words := hm.words.trans hrest.words
                returned := fun hempty => hrest.returned (Bool.or_eq_false_iff.mp hempty).2
                coherent := ⟨coherent_mono hrest.words _ hm.coherent, hrest.coherent⟩
                leafWords := by simp only [leafWordsAll, hm.leafWords, hrest.leafWords]
                inserted := fun hret => ⟨hnew _, hrest.inserted hret⟩
                insertedWords := fun hret hno => by
                  obtain ⟨hfirst, hno⟩ := Bool.or_eq_false_iff.mp hno
                  simp only [leafWordsAll, leafWords_newSynonyms cs hfirst,
                    hrest.insertedWords hret hno, CachedObj.leafWords] }

/-- What `insertSynonyms` leaves of an object, whose words stay if it gains none. -/
structure Inserted (o : CachedObj) (gains fails : Bool) (w : WordObjects) (m : Call CachedObj) :
    Prop where
  kept : Kept w (m.value, m.words)
  leafWords : gains = false → m.value.leafWords = o.leafWords
  returned : fails = false → m.returned = true

include hdatabase in
theorem insertText_inserted {e : CachedObj} (h : e.Coherent w) (htext : e.isText = true)
    (hcache : e.cacheWords = none ∨ e.textGains database = false) :
    Inserted e (e.textGains database) (e.getEmbedded.any (·.isEmptyWord)) w
      (e.insertText database w) := by
  cases e with
  | word isVariable text cs => cases htext
  | list cls name embedded cs =>
      have hm := toInsertAll_toInsert hdatabase embedded w h.1
      rw [CachedObj.insertText]
      generalize toInsertAll database embedded w = m at hm ⊢
      have hembedded : CoherentAll m.words (if m.returned then m.value.2 else m.value.1) := by
        split
        · next hret => exact hm.inserted hret
        · exact hm.coherent
      have hwords : (CachedObj.list cls name embedded cs).textGains database = false →
          (CachedObj.list cls name (if m.returned then m.value.2 else m.value.1) cs).leafWords =
            (CachedObj.list cls name embedded cs).leafWords := by
        intro hno
        rw [CachedObj.leafWords, CachedObj.leafWords]
        split
        · next hname =>
            have hno : embedded.any (·.hasSynonyms database) = false := by
              simpa [CachedObj.textGains, CachedObj.isTruth, hname, CachedObj.getEmbedded] using hno
            split
            · next hret => exact hm.insertedWords hret hno
            · exact hm.leafWords
        · rfl
      refine ⟨⟨hm.words, hembedded, ?_⟩, hwords, hm.returned⟩
      rcases hcache with hnone | hno
      · obtain rfl : cs = none := hnone
        exact holds_none _ _
      · have hholds := h.holds.mono hm.words
        rw [← hwords hno] at hholds
        exact hholds

/-- What it leaves of the objects that a list embeds. -/
structure InsertedAll (os : List CachedObj) (gains fails : Bool) (w : WordObjects)
    (m : Call (List CachedObj)) : Prop where
  words : w <+: m.words
  coherent : CoherentAll m.words m.value
  leafWords : gains = false → leafWordsAll m.value = leafWordsAll os
  returned : fails = false → m.returned = true

theorem InsertedAll.cons {e : CachedObj} {os : List CachedObj} {gains gains' fails fails' : Bool}
    {m : Call CachedObj} {m' : Call (List CachedObj)} (he : Inserted e gains fails w m)
    (hall : CoherentAll w os) (hrest : InsertedAll os gains' fails' m.words m') :
    InsertedAll (e :: os) (gains || gains') (fails || fails') w
      (if m.returned then ⟨m.value :: m'.value, m'.words, m'.returned⟩
        else ⟨m.value :: os, m.words, false⟩) := by
  cases hret : m.returned with
  | true =>
      exact {
        words := he.kept.words.trans hrest.words
        coherent := ⟨coherent_mono hrest.words _ he.kept.coherent, hrest.coherent⟩
        leafWords := fun hno => by
          obtain ⟨hfirst, hno⟩ := Bool.or_eq_false_iff.mp hno
          simp only [if_true, leafWordsAll, he.leafWords hfirst, hrest.leafWords hno]
        returned := fun hno => hrest.returned (Bool.or_eq_false_iff.mp hno).2 }
  | false =>
      exact {
        words := he.kept.words
        coherent := ⟨he.kept.coherent, coherentAll_mono he.kept.words os hall⟩
        leafWords := fun hno => by
          have hfirst := (Bool.or_eq_false_iff.mp hno).1
          simp [leafWordsAll, he.leafWords hfirst]
        returned := fun hno => by
          have := he.returned (Bool.or_eq_false_iff.mp hno).1
          rw [hret] at this
          cases this }

mutual
theorem insertSynonyms_inserted {reset : Prop} (hfine : ∀ word, ∀ s ∈ database word, Fine s)
    (o : CachedObj) (w : WordObjects) (h : o.Coherent w) (hkept : o.SynonymsKept database reset)
    (hreset : reset → o.fails = false) :
    Inserted o (o.gains database) o.fails w (o.insertSynonyms database w) := by
  cases o with
  | word isVariable text cs => exact ⟨⟨List.prefix_refl w, h⟩, fun _ => rfl, fun _ => rfl⟩
  | list cls name embedded cs =>
      rw [CachedObj.insertSynonyms]
      split
      · next hcls => exact ⟨⟨List.prefix_refl w, h⟩, fun _ => rfl, fun _ => rfl⟩
      · next hcls =>
          obtain ⟨hown, hkept⟩ := hkept.resolve_left hcls
          have hfails : (CachedObj.list cls name embedded cs).fails = failsAll embedded := by
            simp [CachedObj.fails, hcls]
          rw [hfails] at hreset ⊢
          have hall := insertSynonymsEach_inserted hfine embedded w h.1 hkept hreset
          generalize insertSynonymsEach database embedded w = m at hall ⊢
          have hwords : (CachedObj.list cls name embedded cs).gains database = false →
              (CachedObj.list cls name m.value cs).leafWords =
                (CachedObj.list cls name embedded cs).leafWords := by
            intro hno
            rw [CachedObj.leafWords, CachedObj.leafWords]
            split
            · next hname => exact hall.leafWords (by simpa [CachedObj.gains, hcls, hname] using hno)
            · rfl
          refine ⟨⟨hall.words, hall.coherent, ?_⟩, hwords, hall.returned⟩
          cases hret : m.returned with
          | true => exact holds_none _ _
          | false =>
              rcases hown with hnone | hno | hreset'
              · obtain rfl := hnone
                exact holds_none _ _
              · have hholds := h.holds.mono hall.words
                rw [← hwords hno] at hholds
                exact hholds
              · have := hall.returned (hreset hreset')
                rw [hret] at this
                cases this

theorem insertSynonymsEach_inserted {reset : Prop}
    (hfine : ∀ word, ∀ s ∈ database word, Fine s) (os : List CachedObj) (w : WordObjects)
    (h : CoherentAll w os) (hkept : SynonymsKeptAll database reset os)
    (hreset : reset → failsAll os = false) :
    InsertedAll os (gainsAll database os) (failsAll os) w (insertSynonymsEach database os w) := by
  cases os with
  | nil => exact ⟨List.prefix_refl w, trivial, fun _ => rfl, fun _ => rfl⟩
  | cons e os =>
      have hfirst : Inserted e (if e.isText then e.textGains database else e.gains database)
          (if e.isText then e.getEmbedded.any (·.isEmptyWord) else e.fails) w
          (if e.isText then e.insertText database w else e.insertSynonyms database w) := by
        have hone := hkept.1
        have hno := fun hr => (Bool.or_eq_false_iff.mp (hreset hr)).1
        split at hone
        · next htext =>
            simp only [htext, if_true]
            exact insertText_inserted hfine h.1 htext hone
        · next htext =>
            simp only [if_neg htext] at hno ⊢
            exact insertSynonyms_inserted hfine e w h.1 hone hno
      rw [insertSynonymsEach, gainsAll, failsAll]
      generalize (if e.isText then e.insertText database w else e.insertSynonyms database w) = m
        at hfirst ⊢
      exact InsertedAll.cons hfirst h.2 (insertSynonymsEach_inserted hfine os m.words
        (coherentAll_mono hfirst.kept.words os h.2) hkept.2
        fun hr => (Bool.or_eq_false_iff.mp (hreset hr)).2)
end

end

/-! ## Variables -/

section

variable (variablemap : VariableMap)

mutual
/-- A word among the words of an object is the name of a variable. -/
def CachedObj.replaces : CachedObj → Bool
  | .word _ text _ => (variablemap.get text).isSome
  | .list _ name embedded _ => name ≠ jtext "truth" && replacesAll embedded

def replacesAll : List CachedObj → Bool
  | [] => false
  | e :: embedded => e.replaces || replacesAll embedded
end

mutual
/-- The variables for which objects are inserted, each as often as it is found. -/
def CachedObj.insertedVariables : CachedObj → List JString
  | .word _ text _ => if ((variablemap.get text).getD []).isEmpty then [] else [text]
  | .list _ _ embedded _ => insertedVariablesAll embedded

def insertedVariablesAll : List CachedObj → List JString
  | [] => []
  | e :: embedded => e.insertedVariables ++ insertedVariablesAll embedded
end

variable {variablemap}

mutual
theorem leafWords_insertVariables (o : CachedObj) (h : o.replaces variablemap = false) :
    (o.insertVariables variablemap).leafWords = o.leafWords := by
  cases o with
  | word isVariable text cs => rfl
  | list cls name embedded cs =>
      rw [CachedObj.insertVariables, CachedObj.leafWords, CachedObj.leafWords]
      split
      · next hname =>
          exact leafWords_insertVariablesEach embedded (by simpa [CachedObj.replaces, hname] using h)
      · rfl

theorem leafWords_insertVariablesEach (os : List CachedObj) (h : replacesAll variablemap os = false) :
    leafWordsAll (insertVariablesEach variablemap os) = leafWordsAll os := by
  cases os with
  | nil => rfl
  | cons e os =>
      obtain ⟨he, hrest⟩ := Bool.or_eq_false_iff.mp h
      have hall := leafWords_insertVariablesEach os hrest
      cases e with
      | word isVariable text cs =>
          have hget : variablemap.get text = none := by simpa [CachedObj.replaces] using he
          simp [insertVariablesEach, hget, leafWordsAll, hall]
      | list cls name embedded cs =>
          simp only [insertVariablesEach, leafWordsAll, leafWords_insertVariables _ he, hall]
end

mutual
theorem insertVariables_coherent (hmap : ∀ text os, variablemap.get text = some os → CoherentAll w os)
    (o : CachedObj) (h : o.Coherent w) : (o.insertVariables variablemap).Coherent w := by
  cases o with
  | word isVariable text cs => exact h
  | list cls name embedded cs =>
      exact ⟨insertVariablesEach_coherent hmap embedded h.1, holds_none w _⟩

theorem insertVariablesEach_coherent
    (hmap : ∀ text os, variablemap.get text = some os → CoherentAll w os) (os : List CachedObj)
    (h : CoherentAll w os) : CoherentAll w (insertVariablesEach variablemap os) := by
  cases os with
  | nil => trivial
  | cons e os =>
      have hall := insertVariablesEach_coherent hmap os h.2
      cases e with
      | word isVariable text cs =>
          refine coherentAll_append.mpr ⟨?_, hall⟩
          cases hget : variablemap.get text with
          | none => exact ⟨h.1, trivial⟩
          | some objects => exact hmap text objects hget
      | list cls name embedded cs => exact ⟨insertVariables_coherent hmap _ h.1, hall⟩
end

end

end Freehal.WordCache
