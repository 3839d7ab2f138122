import Freehal.WordCache.Insertion
import Freehal.WordCache.Toggling

/-!
# Calls on a tree

A call changes the words of the object on which it is called, and no list above the object hears of
that. So the caches stay coherent as long as none of these lists has its words cached.
-/

namespace Freehal.WordCache

open Freehal.Xml (JString jtext)
open Freehal.Lib
open Freehal.Reasoning (ListClass SynonymProvider XmlObj)

/-! ## The lists above an object -/

/-- The words of the object at a path are words of the tree. -/
def CachedObj.Shown : List Nat → CachedObj → Prop
  | [], _ => True
  | i :: path, .list _ name embedded _ =>
      name ≠ jtext "truth" ∧ ∃ e, embedded[i]? = some e ∧ Shown path e
  | _ :: _, .word _ _ _ => False

/-- No list above the object at a path has cached words that show its words. -/
def CachedObj.UncachedAbove : List Nat → CachedObj → Prop
  | [], _ => True
  | i :: path, .list cls name embedded cs =>
      ((CachedObj.list cls name embedded cs).Shown (i :: path) → cs = none) ∧
        ∀ e, embedded[i]? = some e → UncachedAbove path e
  | _ :: _, .word _ _ _ => True

theorem leafWordsAll_eq (os : List CachedObj) :
    leafWordsAll os = os.flatMap CachedObj.leafWords := by
  induction os with
  | nil => rfl
  | cons e os ih => rw [leafWordsAll, ih, List.flatMap_cons]

theorem leafWordsAll_set {os : List CachedObj} {i : Nat} {e e' : CachedObj} (he : os[i]? = some e)
    (h : e'.leafWords = e.leafWords) : leafWordsAll (os.set i e') = leafWordsAll os := by
  obtain ⟨hlt, rfl⟩ := List.getElem?_eq_some_iff.mp he
  rw [leafWordsAll_eq, leafWordsAll_eq, List.flatMap_def, List.flatMap_def, List.map_set, h,
    ← List.getElem_map (f := CachedObj.leafWords) (h := by simpa using hlt), List.set_getElem_self]

theorem coherentAll_set {w : WordObjects} {os : List CachedObj} {e : CachedObj}
    (h : CoherentAll w os) (he : e.Coherent w) (i : Nat) : CoherentAll w (os.set i e) := by
  refine coherentAll_iff.mpr fun o ho => ?_
  rcases List.mem_or_eq_of_mem_set ho with ho | rfl
  · exact coherentAll_iff.mp h o ho
  · exact he

/-- A call that makes new words only keeps the caches coherent if it leaves the words of its object
as they are, or no list above the object has them cached. -/
theorem callAt_kept {op : Op} {same : Prop} {w : WordObjects} {o : CachedObj} (path : List Nat)
    (t : CachedObj) (h : t.Coherent w) (ho : t.objectAt path = some o)
    (hop : o.Coherent w → Kept w (op.call o w) ∧ (same → (op.call o w).1.leafWords = o.leafWords))
    (hsame : same ∨ t.UncachedAbove path) :
    Kept w (t.callAt op path w) ∧
      (same ∨ ¬ t.Shown path → (t.callAt op path w).1.leafWords = t.leafWords) := by
  induction path generalizing t with
  | nil =>
      obtain rfl := Option.some.inj ho
      obtain ⟨hkept, hwords⟩ := hop h
      exact ⟨hkept, fun hs => hwords (hs.resolve_right (not_not.mpr trivial))⟩
  | cons i path ih =>
      cases t with
      | word isVariable text cs => cases ho
      | list cls name embedded cs =>
          obtain ⟨e, he, ho⟩ := Option.bind_eq_some_iff.mp ho
          have hcoherent := coherentAll_iff.mp h.1 e (List.mem_of_getElem? he)
          have hone := ih e hcoherent ho (hsame.imp_right fun habove => habove.2 e he)
          rw [CachedObj.callAt, he]
          dsimp only
          generalize e.callAt op path w = m at hone ⊢
          obtain ⟨hkept, hwords⟩ := hone
          have hall : same ∨ ¬ (CachedObj.list cls name embedded cs).Shown (i :: path) →
              (CachedObj.list cls name (embedded.set i m.1) cs).leafWords =
                (CachedObj.list cls name embedded cs).leafWords := by
            intro hs
            rw [CachedObj.leafWords, CachedObj.leafWords]
            split
            · next hname =>
                refine leafWordsAll_set he (hwords (hs.imp_right fun hshown hpath => ?_))
                exact hshown ⟨hname, e, he, hpath⟩
            · rfl
          refine ⟨⟨hkept.words, ?_, ?_⟩, hall⟩
          · exact coherentAll_set (coherentAll_mono hkept.words _ h.1) hkept.coherent i
          · by_cases hs : same ∨ ¬ (CachedObj.list cls name embedded cs).Shown (i :: path)
            · have hholds := h.holds.mono hkept.words
              rw [← hall hs] at hholds
              exact hholds
            · obtain ⟨hnot, hshown⟩ := not_or.mp hs
              obtain rfl := (hsame.resolve_left hnot).1 (not_not.mp hshown)
              exact holds_none _ _

/-! ## Toggling -/

section

variable {tagger : JString → JString} {toggled : List Nat} {w : WordObjects}

theorem scopeWords_fst (path : List Nat) (t : CachedObj) :
    (scopeWords path t).map Prod.fst = t.leafWords := by
  induction path generalizing t with
  | nil => exact map_fst_scope _ true
  | cons i path ih =>
      cases t with
      | word isVariable text cs => exact map_fst_scope _ false
      | list cls name embedded cs =>
          rw [scopeWords, CachedObj.leafWords]
          split
          · cases he : embedded[i]? with
            | none => exact map_fst_scope _ false
            | some e =>
                obtain ⟨hlt, rfl⟩ := List.getElem?_eq_some_iff.mp he
                simp only [List.map_append, map_fst_scope, ih]
                conv_rhs => rw [← List.take_append_drop i embedded, List.drop_eq_getElem_cons hlt]
                rw [leafWordsAll_append, leafWordsAll]
          · rfl

/-- Toggling keeps the caches coherent if they hold the toggled words where the leaves are. -/
theorem callAt_toggle {o : CachedObj} (path : List Nat) (t : CachedObj) (h : t.Coherent w)
    (ho : t.objectAt path = some o) (hfine : o.ToggledFine tagger)
    (hnodup : (o.toggledWords tagger).Nodup)
    (hheld : HeldAt tagger (o.toggledWords tagger) path t) :
    During tagger w (o.toggledWords tagger) (t.callAt (.toggle tagger) path w).2 ∧
      (t.callAt (.toggle tagger) path w).1.Coherent (t.callAt (.toggle tagger) path w).2 ∧
        (t.callAt (.toggle tagger) path w).1.leafWords = toggledTexts tagger (scopeWords path t) := by
  induction path generalizing t with
  | nil =>
      obtain rfl := Option.some.inj ho
      have hm := toggle_toggled t [] w h hheld hfine hnodup (fun c hc => hc) (.refl w)
      exact ⟨hm.during, hm.coherent _ hm.during fun _ _ _ => rfl, hm.leafWords⟩
  | cons i path ih =>
      cases t with
      | word isVariable text cs => cases ho
      | list cls name embedded cs =>
          obtain ⟨e, he, ho⟩ := Option.bind_eq_some_iff.mp ho
          obtain ⟨hown, hone, hbefore, hbehind⟩ := hheld
          have hcoherent := coherentAll_iff.mp h.1
          have hm := ih e (hcoherent e (List.mem_of_getElem? he)) ho (hone e he)
          rw [CachedObj.callAt, he]
          dsimp only
          generalize e.callAt (.toggle tagger) path w = m at hm ⊢
          obtain ⟨hduring, hm, hwords⟩ := hm
          obtain ⟨hlt, rfl⟩ := List.getElem?_eq_some_iff.mp he
          have hset : embedded.set i m.1 = embedded.take i ++ m.1 :: embedded.drop (i + 1) := by
            rw [List.set_eq_take_append_cons_drop, if_pos hlt]
          have htake : CoherentAll m.2 (embedded.take i) := coherentAll_of_held hduring _
            (coherentAll_iff.mpr fun o ho => hcoherent o (List.mem_of_mem_take ho)) hbefore
          have hdrop : CoherentAll m.2 (embedded.drop (i + 1)) := coherentAll_of_held hduring _
            (coherentAll_iff.mpr fun o ho => hcoherent o (List.mem_of_mem_drop ho)) hbehind
          have hall : (CachedObj.list cls name (embedded.set i m.1) cs).leafWords =
              toggledTexts tagger (scopeWords (i :: path) (.list cls name embedded cs)) := by
            rw [CachedObj.leafWords, scopeWords, hset]
            split
            · simp only [he, toggledTexts_append, toggledTexts_unscoped, leafWordsAll_append,
                leafWordsAll, hwords]
            · rfl
          refine ⟨hduring, ⟨?_, fun c hc => ?_⟩, hall⟩
          · rw [hset]
            exact coherentAll_append.mpr ⟨htake, hm, hdrop⟩
          · have hshows := (hown c hc).shows ((scopeWords_fst _ _).symm ▸ h.holds c hc) hduring
            rw [← hall] at hshows
            exact hshows

end

/-! ## Calls that keep the caches coherent -/

/-- What is added has words of its own only where no words are cached above it; synonyms and
variables are inserted only there, and each object at one place; and toggled words are those that
the caches hold. -/
def Op.Keeps (s : State) (path : List Nat) (o : CachedObj) : Op → Prop
  | .insertSynonyms database =>
      (∀ word, ∀ text ∈ database word, Fine text) ∧
        o.SynonymsKept database (o.fails = false) ∧
          (o.gains database = false ∨ s.tree.UncachedAbove path)
  | .insertVariables variablemap =>
      (∀ text os, variablemap.get text = some os → CoherentAll s.words os) ∧
        (o.insertedVariables variablemap).Nodup ∧
          (o.replaces variablemap = false ∨ s.tree.UncachedAbove path)
  | .toggle tagger =>
      o.ToggledFine tagger ∧ (o.toggledWords tagger).Nodup ∧
        HeldAt tagger (o.toggledWords tagger) path s.tree
  | .getWords => True
  | .elsewhere _ => True
  | op =>
      CoherentAll s.words op.added ∧
        ((leafWordsAll op.added = [] ∨ o.isTruth = true) ∨
          o.cacheWords = none ∧ s.tree.UncachedAbove path)

def State.Keeps (s : State) (call : List Nat × Op) : Prop :=
  ∀ o, s.tree.objectAt call.1 = some o → call.2.Keeps s call.1 o

/-- Every call of a run does. -/
def State.KeepsAll (s : State) : List (List Nat × Op) → Prop
  | [] => True
  | call :: calls => s.Keeps call ∧ (s.step call).KeepsAll calls

def State.Coherent (s : State) : Prop := s.tree.Coherent s.words

/-- What is called on a path where there is no object has no effect. -/
theorem callAt_none {op : Op} {w : WordObjects} (path : List Nat) (t : CachedObj)
    (h : t.objectAt path = none) : t.callAt op path w = (t, w) := by
  induction path generalizing t with
  | nil => cases h
  | cons i path ih =>
      cases t with
      | word isVariable text cs => rfl
      | list cls name embedded cs =>
          rw [CachedObj.callAt]
          rw [CachedObj.objectAt] at h
          cases he : embedded[i]? with
          | none => rfl
          | some e =>
              rw [he] at h
              obtain ⟨hlt, rfl⟩ := List.getElem?_eq_some_iff.mp he
              simp only [ih _ h, List.set_getElem_self]

theorem callAt_add {op : Op} {o : CachedObj} {os : List CachedObj} {w : WordObjects}
    {path : List Nat} {t : CachedObj} (h : t.Coherent w) (ho : t.objectAt path = some o)
    (hcall : op.call o w = (o.addEach os, w)) (hos : CoherentAll w os)
    (hwords : (leafWordsAll os = [] ∨ o.isTruth = true) ∨
      o.cacheWords = none ∧ t.UncachedAbove path) : Kept w (t.callAt op path w) := by
  refine (callAt_kept path t h ho (fun hcoherent => ?_) (hwords.imp_right And.right)).1
  rw [hcall]
  refine ⟨addEach_kept hcoherent hos ?_, leafWords_addEach⟩
  exact (hwords.imp leafWords_addEach And.left).symm

/-- One call. -/
theorem State.Coherent.step {s : State} (h : s.Coherent) {call : List Nat × Op}
    (hkeeps : s.Keeps call) : (s.step call).Coherent := by
  obtain ⟨path, op⟩ := call
  cases ho : s.tree.objectAt path with
  | none =>
      rw [State.step, callAt_none path s.tree ho]
      exact h
  | some o =>
      have hkeeps := hkeeps o ho
      cases op with
      | add o' => exact (callAt_add h ho rfl hkeeps.1 hkeeps.2).coherent
      | addAll o' => exact (callAt_add h ho rfl hkeeps.1 hkeeps.2).coherent
      | addEach os => exact (callAt_add h ho rfl hkeeps.1 hkeeps.2).coherent
      | insertSynonyms database =>
          obtain ⟨hfine, hkept, habove⟩ := hkeeps
          refine (callAt_kept path s.tree h ho (fun hcoherent => ?_) habove).1.coherent
          have hm := insertSynonyms_inserted hfine o s.words hcoherent hkept id
          exact ⟨hm.kept, hm.leafWords⟩
      | insertVariables variablemap =>
          obtain ⟨hmap, -, habove⟩ := hkeeps
          refine (callAt_kept path s.tree h ho (fun hcoherent => ?_) habove).1.coherent
          exact ⟨⟨List.prefix_refl _, insertVariables_coherent hmap o hcoherent⟩,
            leafWords_insertVariables o⟩
      | toggle tagger =>
          obtain ⟨hfine, hnodup, hheld⟩ := hkeeps
          exact (callAt_toggle path s.tree h ho hfine hnodup hheld).2.1
      | getWords =>
          refine (callAt_kept path s.tree h ho (fun hcoherent => ?_)
            (Or.inl trivial)).1.coherent
          have hm := prepareWords_prepared o s.words hcoherent
          exact ⟨⟨hm.words, hm.coherent⟩, fun _ => hm.leafWords⟩
      | elsewhere texts =>
          refine (callAt_kept path s.tree h ho (fun hcoherent => ?_)
            (Or.inl trivial)).1.coherent
          have hw := List.prefix_append s.words texts
          exact ⟨⟨hw, coherent_mono hw o hcoherent⟩, fun _ => rfl⟩

/-- Every run of such calls. -/
theorem State.Coherent.run {s : State} (h : s.Coherent) {calls : List (List Nat × Op)}
    (hkeeps : s.KeepsAll calls) : (s.run calls).Coherent := by
  induction calls generalizing s with
  | nil => exact h
  | cons call calls ih => exact ih (h.step hkeeps.1) hkeeps.2

/-! ## Runs from a tree without caches -/

mutual
/-- No text of a tree throws. -/
def FineTexts : XmlObj → Prop
  | .word text => Fine text
  | .var text _ => Fine text
  | .list _ _ embedded => FineTextsAll embedded

def FineTextsAll : List XmlObj → Prop
  | [] => True
  | e :: embedded => FineTexts e ∧ FineTextsAll embedded
end

/-- The state before the first call. -/
def State.start (x : XmlObj) : State := ⟨ofXml x, []⟩

mutual
theorem coherent_ofXml (x : XmlObj) (h : FineTexts x) : (ofXml x).Coherent [] := by
  cases x with
  | word text => exact ⟨h, holds_none _ _⟩
  | var text after => exact ⟨h, holds_none _ _⟩
  | list cls name embedded => exact ⟨coherentAll_ofXmlAll embedded h, holds_none _ _⟩

theorem coherentAll_ofXmlAll (xs : List XmlObj) (h : FineTextsAll xs) :
    CoherentAll [] (ofXmlAll xs) := by
  cases xs with
  | nil => trivial
  | cons x xs => exact ⟨coherent_ofXml x h.1, coherentAll_ofXmlAll xs h.2⟩
end

theorem coherent_objectAt {w : WordObjects} {path : List Nat} {t o : CachedObj} (h : t.Coherent w)
    (ho : t.objectAt path = some o) : o.Coherent w := by
  induction path generalizing t with
  | nil => exact Option.some.inj ho ▸ h
  | cons i path ih =>
      cases t with
      | word isVariable text cs => cases ho
      | list cls name embedded cs =>
          obtain ⟨e, he, ho⟩ := Option.bind_eq_some_iff.mp ho
          exact ih (coherentAll_iff.mp h.1 e (List.mem_of_getElem? he)) ho

/-- In a run of calls that keep the caches coherent, `getWords` of every object gives the words of
the leaves that it has then. -/
theorem getWords_run {x : XmlObj} (hx : FineTexts x) {calls : List (List Nat × Op)}
    (hkeeps : (State.start x).KeepsAll calls) {path : List Nat} {o : CachedObj}
    (ho : ((State.start x).run calls).tree.objectAt path = some o) :
    o.getWords ((State.start x).run calls).words = some o.leafWords := by
  have hstart : (State.start x).Coherent := coherent_ofXml x hx
  exact getWords_of_coherent (coherent_objectAt (hstart.run hkeeps) ho)

/-- A word is added before the words are asked for. -/
theorem getWords_added :
    ((CachedObj.list .xmlList (jtext "subject") [.word false (jtext "peter") (some [0])]
      (some [0])).getWords [jtext "peter"]) = some [jtext "peter"] := by
  have hkeeps : (State.start (.list .xmlList (jtext "subject") [])).KeepsAll
      [([], .add (.word false (jtext "peter") none)), ([], .getWords)] := by
    refine ⟨fun o ho => ?_, fun o _ => trivial, trivial⟩
    obtain rfl := Option.some.inj ho
    exact ⟨⟨⟨rfl, holds_none _ _⟩, trivial⟩, Or.inr ⟨rfl, trivial⟩⟩
  exact @getWords_run (.list .xmlList (jtext "subject") []) trivial _ hkeeps [] _ rfl

/-- A word that is toggled once is the one that the list has cached. -/
example : (State.start (.list .xmlList (jtext "subject") [.word (jtext "ich")])).KeepsAll
    [([], .getWords), ([], .toggle fun _ => jtext "du"), ([], .getWords)] := by
  refine ⟨fun o _ => trivial, fun o ho => ?_, fun o _ => trivial, trivial⟩
  obtain rfl := Option.some.inj ho
  refine ⟨⟨fun _ => rfl, trivial⟩, by decide, ⟨Or.inl ⟨rfl, by decide⟩, trivial⟩, fun c hc => ?_⟩
  obtain rfl := Option.some.inj hc
  exact .cons (by decide) .nil

/-- After the words were asked for, an added word is not found. -/
theorem add_keeps_cache : ¬ ∀ (x : XmlObj) (calls : List (List Nat × Op)), FineTexts x →
    ∀ path o, ((State.start x).run calls).tree.objectAt path = some o →
      o.getWords ((State.start x).run calls).words = some o.leafWords := by
  intro hall
  have := hall (.list .xmlList (jtext "subject") [])
    [([], .getWords), ([], .add (.word false (jtext "peter") none))] trivial [] _ rfl
  cases this

end Freehal.WordCache
