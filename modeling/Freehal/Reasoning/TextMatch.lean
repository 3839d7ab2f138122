import Freehal.Lib.Fold
import Freehal.Reasoning.Pattern

/-!
# Matching a text

The text of a premise matches the text of a fact if each of its objects is found there, wherever
the search for the object before it ended.
-/

namespace Freehal.Reasoning

open Freehal.Xml (JString jtext)
open Freehal.Lib

/-! ## The objects of texts -/

/-- `o instanceof XmlWord` -/
def XmlObj.isWord : XmlObj → Bool
  | .list _ _ _ => false
  | _ => true

/-- The objects of a text are words, variables and lists of synonyms. -/
def XmlObj.isTextObject : XmlObj → Bool
  | .list cls name embedded =>
      cls = .xmlSynonyms && name = jtext "synonyms" && embedded.all XmlObj.isWord
  | _ => true

theorem isTextObject_setAfter (after : List Nat) (o : XmlObj) :
    (o.setAfter after).isTextObject = o.isTextObject := by
  cases o <;> rfl

theorem setAfters_textObjects {embedded : List XmlObj} (h : ∀ o ∈ embedded, o.isTextObject) :
    ∀ o ∈ setAfters embedded, o.isTextObject := by
  intro o ho
  obtain ⟨i, hi, rfl⟩ := List.mem_mapIdx.mp ho
  rw [isTextObject_setAfter]
  exact h _ (List.getElem_mem hi)

theorem ofWord_textObject (word : JString) : (ofWord word).isTextObject := by
  unfold ofWord
  split <;> rfl

/-- The texts of `fromText`. -/
theorem ofWords_textObjects (words : List JString) :
    ∀ o ∈ (ofWords words).getEmbedded, o.isTextObject := by
  apply setAfters_textObjects
  intro o ho
  obtain ⟨word, -, rfl⟩ := List.mem_map.mp ho
  exact ofWord_textObject word

theorem newSynonyms_textObject (database : SynonymProvider) (word : JString) :
    (newSynonyms database word).isTextObject := by
  simp [newSynonyms, XmlObj.isTextObject, XmlObj.isWord]

theorem toInsert_textObject {database : SynonymProvider} {o o' : XmlObj} (ho : o.isTextObject)
    (h : toInsert database o = some o') : o'.isTextObject := by
  cases o with
  | word text =>
      obtain ⟨word, -, rfl⟩ := Option.map_eq_some_iff.mp h
      exact newSynonyms_textObject database word
  | var text after => exact Option.some.inj h ▸ ho
  | list cls name embedded => exact Option.some.inj h ▸ ho

/-- Inserting synonyms into a text leaves it one. -/
theorem insertText_textObjects (database : SynonymProvider) {x : XmlObj}
    (h : ∀ o ∈ x.getEmbedded, o.isTextObject) :
    ∀ o ∈ (insertText database x).1.getEmbedded, o.isTextObject := by
  cases x with
  | word text => exact h
  | var text after => exact h
  | list cls name embedded =>
      cases hm : embedded.mapM (toInsert database) with
      | none => simpa only [insertText, hm] using h
      | some inserted =>
          simp only [insertText, hm, XmlObj.getEmbedded]
          apply setAfters_textObjects
          intro o ho
          obtain ⟨e, he, heo⟩ := forall₂_mem_right (mapM_eq_some_iff.mp hm) ho
          exact toInsert_textObject (h e he) heo

/-! ## One object -/

/-- An object of a text is found or not, and binds no variable. -/
theorem exists_matches_of_textObject {l : XmlObj} (hl : l.isTextObject) (r : XmlObj) :
    ∃ b, ∀ variablemap, l.matches r variablemap = some (b, variablemap) := by
  cases l with
  | word text => exact ⟨_, fun _ => rfl⟩
  | var text after => exact ⟨_, fun _ => rfl⟩
  | list cls name embedded =>
      simp only [XmlObj.isTextObject, Bool.and_eq_true, decide_eq_true_eq, List.all_eq_true] at hl
      obtain ⟨⟨rfl, rfl⟩, hwords⟩ := hl
      have hany : ∃ b, ∀ variablemap, matchesAny embedded r variablemap = some (b, variablemap) := by
        induction embedded with
        | nil => exact ⟨false, fun _ => rfl⟩
        | cons e embedded ih =>
            obtain ⟨b, hb⟩ := ih fun o ho => hwords o (List.mem_cons_of_mem _ ho)
            have he := hwords e List.mem_cons_self
            cases e with
            | list cls name inner => cases he
            | word text =>
                refine ⟨wordMatches text r || b, fun variablemap => ?_⟩
                cases h : wordMatches text r <;> simp [matchesAny, XmlObj.matches, h, hb]
            | var text after =>
                refine ⟨wordMatches text r || b, fun variablemap => ?_⟩
                cases h : wordMatches text r <;> simp [matchesAny, XmlObj.matches, h, hb]
      obtain ⟨b, hb⟩ := hany
      refine ⟨b, fun variablemap => ?_⟩
      have hignored : isIgnoredTree (jtext "synonyms") = false := by decide
      have houter : isOuterTree (jtext "synonyms") = false := by decide
      simp [XmlObj.matches, hignored, houter, hb]

/-- Whether an object is found at another one. -/
def XmlObj.finds (l r : XmlObj) : Bool := (l.matches r []).any (·.1)

theorem matches_of_textObject {l : XmlObj} (hl : l.isTextObject) (r : XmlObj)
    (variablemap : VariableMap) : l.matches r variablemap = some (l.finds r, variablemap) := by
  obtain ⟨b, hb⟩ := exists_matches_of_textObject hl r
  simp [XmlObj.finds, hb]

theorem finds_iff {l : XmlObj} (hl : l.isTextObject) (r : XmlObj) (variablemap : VariableMap) :
    l.finds r = true ↔ ∃ bound, l.matches r variablemap = some (true, bound) := by
  rw [matches_of_textObject hl r variablemap]
  simp

/-! ## The search for one object -/

theorem wrap_of_pos {k size : Nat} (h : 0 < size) : wrap k size = some (k % size) := by
  have hmod := Nat.mod_lt k h
  simp [wrap, Nat.ne_of_gt h, Nat.not_le.mpr hmod]

theorem variableWords_eq (after : List Nat) (j : Nat) (right : List XmlObj) :
    variableWords false after j right = right := by
  induction right generalizing j with
  | nil => rfl
  | cons e2 right ih => simp [variableWords, ih]

/-- What is found at a position of the text. -/
def foundAt (l : XmlObj) (emb2 : List XmlObj) (j : Nat) : Bool := emb2[j]?.any l.finds

theorem matchesAt_of_textObject {l : XmlObj} (hl : l.isTextObject) (hv : l.isVariable = false)
    {emb2 : List XmlObj} {j : Nat} (hj : j < emb2.length) (variablemap : VariableMap) :
    matchesAt l (fun r vs => l.matches r vs) emb2 j variablemap =
      some (foundAt l emb2 j, variablemap) := by
  cases l with
  | var text after => cases hv
  | word text =>
      simp [matchesAt, foundAt, List.getElem?_eq_getElem hj, matches_of_textObject hl]
  | list cls name embedded =>
      simp [matchesAt, foundAt, List.getElem?_eq_getElem hj, matches_of_textObject hl]

variable {emb1 emb2 : List XmlObj} {k : Nat}

/-- A variable takes what is left of the text. -/
theorem matchesTexts_var (text : JString) (after : List Nat) (hk : k < emb2.length)
    (variablemap : VariableMap) :
    matchesTexts (.var text after :: emb1) emb2 k variablemap =
      matchesTexts emb1 emb2 ((k + 1) % emb2.length) (variablemap.put text (emb2.drop k)) := by
  have hnow : matchesAt (.var text after) (fun r vs => (XmlObj.var text after).matches r vs) emb2
      (k % emb2.length) variablemap = some (true, variablemap.put text (emb2.drop k)) := by
    rw [Nat.mod_eq_of_lt hk, matchesAt, variableWords_eq]
  obtain ⟨rounds, hrounds⟩ : ∃ rounds, emb2.length * 2 - k = rounds + 1 :=
    ⟨emb2.length * 2 - k - 1, by omega⟩
  rw [matchesTexts, hrounds, cyclicSearch_now hnow rounds]
  simp [wrap_of_pos (show 0 < emb2.length by omega)]

/-- Any other object is searched for from the position on. -/
theorem matchesTexts_object {l : XmlObj} (hl : l.isTextObject) (hv : l.isVariable = false)
    (hk : k < emb2.length) (variablemap : VariableMap) :
    (∃ i, FirstFrom (fun m => foundAt l emb2 (m % emb2.length) = true) k i ∧
        matchesTexts (l :: emb1) emb2 k variablemap =
          matchesTexts emb1 emb2 ((i + 1) % emb2.length) variablemap) ∨
      ((∀ r ∈ emb2, l.finds r = false) ∧
        matchesTexts (l :: emb1) emb2 k variablemap = some (false, variablemap)) := by
  have hpos : 0 < emb2.length := by omega
  rcases cyclicSearch_full (fun j hj => matchesAt_of_textObject hl hv hj variablemap) hk with
    ⟨i, hfirst, hsearch⟩ | ⟨hnone, hsearch⟩
  · refine Or.inl ⟨i, hfirst, ?_⟩
    rw [matchesTexts, hsearch]
    simp [wrap_of_pos hpos]
  · refine Or.inr ⟨fun r hr => ?_, ?_⟩
    · obtain ⟨j, hj, rfl⟩ := List.mem_iff_getElem.mp hr
      simpa [foundAt, List.getElem?_eq_getElem hj] using hnone j hj
    · rw [matchesTexts, hsearch]
      simp [wrap_of_pos hpos]

/-- From any position on, the objects of the premise are found if each of them is found anywhere. -/
theorem matchesTexts_iff (hobjects : ∀ l ∈ emb1, l.isTextObject) (hk : k < emb2.length)
    (variablemap : VariableMap) :
    ∃ found bound, matchesTexts emb1 emb2 k variablemap = some (found, bound) ∧
      (found = true ↔ ∀ l ∈ emb1, l.isVariable = false → ∃ r ∈ emb2, l.finds r = true) := by
  induction emb1 generalizing k variablemap with
  | nil => exact ⟨true, variablemap, rfl, by simp⟩
  | cons l emb1 ih =>
      have hpos : 0 < emb2.length := by omega
      have hrest := fun k hk => @ih k (fun o ho => hobjects o (List.mem_cons_of_mem _ ho)) hk
      cases hv : l.isVariable with
      | true =>
          cases l with
          | word text => cases hv
          | list cls name embedded => cases hv
          | var text after =>
              rw [matchesTexts_var text after hk]
              obtain ⟨found, bound, hmatches, hfound⟩ := hrest _ (Nat.mod_lt _ hpos) _
              exact ⟨found, bound, hmatches, by rw [hfound, List.forall_mem_cons, hv]; simp⟩
      | false =>
          have hl := hobjects l List.mem_cons_self
          rcases matchesTexts_object hl hv hk variablemap with
            ⟨i, hfirst, hmatches⟩ | ⟨hnone, hmatches⟩
          · have hmem : ∃ r ∈ emb2, l.finds r = true := by
              have hfound := hfirst.holds
              rw [foundAt, List.getElem?_eq_getElem (Nat.mod_lt i hpos)] at hfound
              exact ⟨_, List.getElem_mem _, hfound⟩
            obtain ⟨found, bound, hrest, hfound⟩ := hrest _ (Nat.mod_lt (i + 1) hpos) variablemap
            exact ⟨found, bound, hmatches.trans hrest, by
              rw [hfound, List.forall_mem_cons]
              simp [hmem]⟩
          · refine ⟨false, variablemap, hmatches, ?_⟩
            have hnot : ¬ ∃ r ∈ emb2, l.finds r = true := by
              rintro ⟨r, hr, hfinds⟩
              rw [hnone r hr] at hfinds
              cases hfinds
            rw [List.forall_mem_cons]
            simp [hv, hnot]

theorem matches_texts (name1 name2 : JString) (emb1 emb2 : List XmlObj)
    (variablemap : VariableMap) :
    (XmlObj.list .xmlText name1 emb1).matches (.list .xmlText name2 emb2) variablemap =
      matchesTexts emb1 emb2 0 variablemap := by
  simp [XmlObj.matches, XmlObj.isText, XmlObj.getEmbedded]

/-- The text of a premise matches a text that is not empty if and only if each of its objects
that is no variable matches an object of it. -/
theorem matches_text_iff {name1 name2 : JString} (hobjects : ∀ l ∈ emb1, l.isTextObject)
    (hne : emb2 ≠ []) (variablemap : VariableMap) :
    (∃ bound, (XmlObj.list .xmlText name1 emb1).matches (.list .xmlText name2 emb2) variablemap =
        some (true, bound)) ↔
      ∀ l ∈ emb1, l.isVariable = false →
        ∃ r ∈ emb2, ∃ bound, l.matches r variablemap = some (true, bound) := by
  obtain ⟨found, bound, hmatches, hfound⟩ :=
    matchesTexts_iff hobjects (List.length_pos_iff.mpr hne) variablemap
  rw [matches_texts, hmatches]
  have hfinds : found = true ↔ ∀ l ∈ emb1, l.isVariable = false →
      ∃ r ∈ emb2, ∃ bound, l.matches r variablemap = some (true, bound) := by
    rw [hfound]
    refine forall₂_congr fun l hl => imp_congr_right fun _ => exists_congr fun r => ?_
    rw [finds_iff (hobjects l hl) r variablemap]
  rw [← hfinds]
  refine ⟨?_, fun h => ⟨bound, by rw [h]⟩⟩
  rintro ⟨bound', h⟩
  exact (Prod.mk.inj (Option.some.inj h)).1

/-- The second object is found before the first one. -/
theorem matches_text_wrapped :
    (∃ bound, (fromText (jtext "is peter $A$")).matches (fromText (jtext "peter is here")) [] =
        some (true, bound)) ↔
      ∀ l ∈ (fromText (jtext "is peter $A$")).getEmbedded, l.isVariable = false →
        ∃ r ∈ (fromText (jtext "peter is here")).getEmbedded,
          ∃ bound, l.matches r [] = some (true, bound) :=
  matches_text_iff (ofWords_textObjects _) (by decide) []

end Freehal.Reasoning
