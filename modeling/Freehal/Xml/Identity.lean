import Freehal.Xml.XmlObj
import Freehal.Index.Lemmas.Content
import Freehal.Lib.Fold

/-!
# The identity of facts

Two trees are equal exactly if the polynomials of their hash strings agree modulo 2³². The sets of
facts keep one fact of each hash code.
-/

namespace Freehal.Xml

open Index (hashSetAdd exists_mem_foldl_hashSetAdd KeyValueDatabase FactIndex getKey)

/-! ## Hash codes -/

/-- The polynomial of a text with the base 31, over the integers. -/
def polynomial (s : Str) : Nat := (s.flatMap utf16).foldl (fun h c => 31 * h + c) 0

theorem foldl_ofNat (cs : List Nat) (h : Nat) :
    cs.foldl (fun h c => 31 * h + BitVec.ofNat 32 c) (BitVec.ofNat 32 h)
      = BitVec.ofNat 32 (cs.foldl (fun h c => 31 * h + c) h) := by
  induction cs generalizing h with
  | nil => rfl
  | cons c cs ih =>
      have hstep : 31 * BitVec.ofNat 32 h + BitVec.ofNat 32 c = BitVec.ofNat 32 (31 * h + c) := by
        rw [BitVec.ofNat_add, BitVec.ofNat_mul]
        rfl
      rw [List.foldl_cons, List.foldl_cons, hstep, ih]

theorem stringHashCode_eq (s : Str) : stringHashCode s = BitVec.ofNat 32 (polynomial s) :=
  foldl_ofNat (s.flatMap utf16) 0

theorem equals_iff (x y : XmlObj) : x.equals y = true
    ↔ polynomial x.hashString % 4294967296 = polynomial y.hashString % 4294967296 := by
  rw [XmlObj.equals, decide_eq_true_eq, XmlObj.hashCode, XmlObj.hashCode, BitVec.toInt_inj,
    stringHashCode_eq, stringHashCode_eq, ← BitVec.toNat_inj, BitVec.toNat_ofNat,
    BitVec.toNat_ofNat]

/-! ## Sets -/

/-- One fact of each hash code of a collection, and no others. -/
structure OneEach (found facts : List XmlObj) : Prop where
  subset : found ⊆ facts
  distinct : found.Pairwise fun x y => x.equals y = false
  covers : ∀ x ∈ facts, ∃ y ∈ found, y.equals x = true

theorem distinct_hashSetAdd {set : List XmlObj} (x : XmlObj)
    (h : set.Pairwise fun x y => x.equals y = false) :
    (hashSetAdd xmlFacts set x).Pairwise fun x y => x.equals y = false := by
  unfold hashSetAdd
  split
  · exact h
  · rename_i hany
    refine List.pairwise_append.mpr ⟨h, List.pairwise_singleton _ _, fun y hy z hz => ?_⟩
    rw [List.mem_singleton.mp hz]
    simp only [List.any_eq_true, not_exists, not_and] at hany
    exact (Bool.not_eq_true _).mp (hany y hy)

theorem mem_hashSetAdd {set : List XmlObj} {x y : XmlObj} (h : y ∈ hashSetAdd xmlFacts set x) :
    y ∈ set ∨ y = x := by
  unfold hashSetAdd at h
  split at h
  · exact Or.inl h
  · simpa using h

theorem foldl_oneEach (facts : List XmlObj) {set old : List XmlObj} (h : OneEach set old) :
    OneEach (facts.foldl (hashSetAdd xmlFacts) set) (old ++ facts) := by
  have hsub : facts.foldl (hashSetAdd xmlFacts) set ⊆ old ++ facts
      ∧ (facts.foldl (hashSetAdd xmlFacts) set).Pairwise fun x y => x.equals y = false := by
    apply Lib.foldl_induction
      (P := fun s => s ⊆ old ++ facts ∧ s.Pairwise fun x y => x.equals y = false)
    · exact ⟨fun x hx => List.mem_append_left _ (h.subset hx), h.distinct⟩
    · intro s x hx hs
      refine ⟨fun y hy => ?_, distinct_hashSetAdd x hs.2⟩
      rcases mem_hashSetAdd hy with hy | rfl
      · exact hs.1 hy
      · exact List.mem_append_right _ hx
  refine ⟨hsub.1, hsub.2, fun x hx => ?_⟩
  have hmem : ∃ y ∈ facts.foldl (hashSetAdd xmlFacts) set, xmlFacts.hashCode y = x.hashCode :=
    exists_mem_foldl_hashSetAdd.mpr <| by
      rcases List.mem_append.mp hx with hx | hx
      · obtain ⟨y, hy, heq⟩ := h.covers x hx
        exact Or.inl ⟨y, hy, by simpa [XmlObj.equals, xmlFacts] using heq⟩
      · exact Or.inr ⟨x, hx, rfl⟩
  obtain ⟨y, hy, heq⟩ := hmem
  exact ⟨y, hy, by simpa [XmlObj.equals, xmlFacts] using heq⟩

theorem hashSet_oneEach (facts : List XmlObj) : OneEach (hashSet facts) facts := by
  have h : OneEach [] [] := ⟨fun _ h => h, List.Pairwise.nil, fun _ h => (by cases h)⟩
  exact foldl_oneEach facts h

/-- What the index has for the keys of some words. -/
def candidates {σ : Type} (kv : KeyValueDatabase σ XmlObj) (ix : FactIndex σ XmlObj)
    (words : List Str) : List XmlObj :=
  words.flatMap fun w => kv.get ix.factsCache (getKey w)

theorem findFacts_oneEach {σ : Type} (kv : KeyValueDatabase σ XmlObj) (ix : FactIndex σ XmlObj)
    (words : List Str) :
    OneEach (FactIndex.findFacts kv xmlFacts ix words) (candidates kv ix words) := by
  have hfold : ∀ (words : List Str) (found old : List XmlObj), OneEach found old →
      OneEach (words.foldl (fun found w => (FactIndex.findFactsByKey kv xmlFacts ix
        (getKey w)).foldl (hashSetAdd xmlFacts) found) found) (old ++ candidates kv ix words) := by
    intro words
    induction words with
    | nil => intro found old h; simpa [candidates] using h
    | cons w words ih =>
        intro found old h
        have hkey := hashSet_oneEach (kv.get ix.factsCache (getKey w))
        have hstep := foldl_oneEach (hashSet (kv.get ix.factsCache (getKey w))) h
        -- the set for the key stands for everything that the index has for it
        have hall : OneEach ((hashSet (kv.get ix.factsCache (getKey w))).foldl
            (hashSetAdd xmlFacts) found) (old ++ kv.get ix.factsCache (getKey w)) := by
          refine ⟨fun x hx => ?_, hstep.distinct, fun x hx => ?_⟩
          · rcases List.mem_append.mp (hstep.subset hx) with hx | hx
            · exact List.mem_append_left _ hx
            · exact List.mem_append_right _ (hkey.subset hx)
          · rcases List.mem_append.mp hx with hx | hx
            · exact hstep.covers x (List.mem_append_left _ hx)
            · obtain ⟨y, hy, hyx⟩ := hkey.covers x hx
              obtain ⟨z, hz, hzy⟩ := hstep.covers y (List.mem_append_right _ hy)
              simp only [XmlObj.equals, decide_eq_true_eq] at hyx hzy
              exact ⟨z, hz, by simp [XmlObj.equals, hzy, hyx]⟩
        have hrest := ih _ _ hall
        rw [List.append_assoc] at hrest
        exact hrest
  have h : OneEach [] [] := ⟨fun _ h => h, List.Pairwise.nil, fun _ h => (by cases h)⟩
  exact hfold words [] [] h

/-- Equality is that of the hash codes, which the same trees share, and the sets of facts keep one
fact of each hash code. -/
theorem fact_identity {σ : Type} (kv : KeyValueDatabase σ XmlObj) :
    (∀ x y : XmlObj, x.equals y = true
        ↔ polynomial x.hashString % 4294967296 = polynomial y.hashString % 4294967296)
      ∧ (∀ x : XmlObj, x.equals x = true)
      ∧ (∀ facts, OneEach (hashSet facts) facts)
      ∧ ∀ ix words, OneEach (FactIndex.findFacts kv xmlFacts ix words) (candidates kv ix words) :=
  ⟨equals_iff, fun x => (equals_iff x x).mpr rfl, hashSet_oneEach, findFacts_oneEach kv⟩

/-- A fact with a subject and a verb. -/
def simpleFact (subject verb : String) : XmlObj :=
  .list "fact".toList [.list "subject".toList [.list "text".toList [.word subject.toList]],
    .list "verb".toList [.list "text".toList [.word verb.toList]]]

/-- Two facts whose subjects have one hash code are equal, and a set keeps only the first. -/
theorem fact_identity_collision :
    simpleFact "Aa" "is" ≠ simpleFact "BB" "is"
      ∧ (simpleFact "Aa" "is").equals (simpleFact "BB" "is") = true
      ∧ (hashSet [simpleFact "Aa" "is", simpleFact "BB" "is"]).length = 1 := by
  refine ⟨?_, by decide +kernel, by decide +kernel⟩
  simp [simpleFact]

end Freehal.Xml
