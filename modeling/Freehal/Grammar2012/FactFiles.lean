import Freehal.Grammar2012.FactIndex
import Freehal.Grammar2012.RoundTrip
import Freehal.Index.SynonymClasses

/-!
# What is stored for a file of facts

For each key the facts of the file that have it, as they are printed.
-/

namespace Freehal.Grammar2012

open Lib (HashMap HashOrder)
open Index (setAddAll mem_setAddAll)

variable {ord : HashOrder} {isSynonym : XmlObj → Bool}

/-! ## The facts of a file -/

theorem mem_insertPointer {set : List Nat} {xfact i : Nat} :
    i ∈ insertPointer set xfact ↔ i ∈ set ∨ i = xfact := by
  unfold insertPointer
  split
  · rename_i h
    refine ⟨Or.inl, fun hi => hi.elim id ?_⟩
    rintro rfl
    exact List.contains_iff_mem.mp h
  · simp

theorem insertPointer_ne_nil (set : List Nat) (xfact : Nat) : insertPointer set xfact ≠ [] :=
  List.ne_nil_of_mem (mem_insertPointer.mpr (Or.inr rfl))

/-- What is in the index while a fact is inserted. -/
theorem foldl_insertKey (xfact : Nat) (keys : List Str) {index : HashMap Str (List Nat)}
    (hunique : index.Unique) (hne : ∀ key, index.get key ≠ some []) :
    (keys.foldl (insertKey xfact) index).Unique ∧
      (∀ key, (keys.foldl (insertKey xfact) index).get key ≠ some []) ∧
      ∀ key i, i ∈ ((keys.foldl (insertKey xfact) index).get key).getD [] ↔
        i ∈ (index.get key).getD [] ∨ (i = xfact ∧ key ∈ keys) := by
  induction keys generalizing index with
  | nil => exact ⟨hunique, hne, fun key i => by simp⟩
  | cons k keys ih =>
      have hget : ∀ key, (insertKey xfact index k).get key =
          if key = k then some (insertPointer ((index.get k).getD []) xfact)
          else index.get key := fun key => HashMap.get_put _ _ _ _
      have hne' : ∀ key, (insertKey xfact index k).get key ≠ some [] := by
        intro key
        rw [hget]
        split
        · simpa using insertPointer_ne_nil _ _
        · exact hne key
      obtain ⟨h1, h2, h3⟩ := @ih (insertKey xfact index k) (hunique.put _ _) hne'
      refine ⟨h1, h2, fun key i => ?_⟩
      rw [List.foldl_cons, h3, hget]
      by_cases hkey : key = k
      · subst hkey
        simp [mem_insertPointer, or_assoc]
        tauto
      · simp [hkey]

/-- The index has a place for each key of a fact, and for no other key. -/
structure IndexDb.Indexed (idb : IndexDb) : Prop where
  unique : idb.index3chars.Unique
  nonempty : ∀ key, idb.index3chars.get key ≠ some []
  mem : ∀ key i, i ∈ (idb.index3chars.get key).getD [] ↔
    ∃ fact, idb.uniquefacts[i]? = some fact ∧ key ∈ factKeys fact

theorem IndexDb.Indexed.insertFact {idb : IndexDb} (h : idb.Indexed) (xfact : XmlObj) :
    (idb.insertFact isSynonym xfact).Indexed := by
  unfold IndexDb.insertFact
  split
  · exact h
  · obtain ⟨h1, h2, h3⟩ := foldl_insertKey idb.uniquefacts.length (factKeys xfact) h.unique h.nonempty
    refine ⟨h1, h2, fun key i => ?_⟩
    rw [h3, h.mem]
    constructor
    · rintro (⟨fact, hfact, hkey⟩ | ⟨rfl, hkey⟩)
      · have hi := (List.getElem?_eq_some_iff.mp hfact).1
        exact ⟨fact, by rw [List.getElem?_append_left hi]; exact hfact, hkey⟩
      · exact ⟨xfact, by simp, hkey⟩
    · rintro ⟨fact, hfact, hkey⟩
      rcases Nat.lt_or_ge i idb.uniquefacts.length with hi | hi
      · rw [List.getElem?_append_left hi] at hfact
        exact Or.inl ⟨fact, hfact, hkey⟩
      · rw [List.getElem?_append_right hi, List.getElem?_singleton] at hfact
        split at hfact
        · cases hfact
          exact Or.inr ⟨by omega, hkey⟩
        · cases hfact

theorem IndexDb.indexed_foldl {idb : IndexDb} (h : idb.Indexed) (facts : List XmlObj) :
    (facts.foldl (IndexDb.insertFact isSynonym) idb).Indexed := by
  induction facts generalizing idb with
  | nil => exact h
  | cons fact facts ih => exact ih (h.insertFact fact)

theorem IndexDb.foldl_insertFact (idb : IndexDb) (facts : List XmlObj) :
    (facts.foldl (IndexDb.insertFact isSynonym) idb).uniquefacts =
        idb.uniquefacts ++ facts.filter (!isSynonym ·) ∧
      (facts.foldl (IndexDb.insertFact isSynonym) idb).filename = idb.filename ∧
      (facts.foldl (IndexDb.insertFact isSynonym) idb).complete = idb.complete := by
  induction facts generalizing idb with
  | nil => simp
  | cons fact facts ih =>
      obtain ⟨h1, h2, h3⟩ := ih (idb.insertFact isSynonym fact)
      rw [List.foldl_cons, h1, h2, h3]
      unfold IndexDb.insertFact
      by_cases hs : isSynonym fact
      · simp [hs]
      · simp [hs]

theorem indexed_new (filename : Str) (complete : Bool) :
    (IndexDb.mk filename complete [] []).Indexed :=
  ⟨HashMap.Unique.nil, fun _ h => (by cases h), fun _ _ => by simp [HashMap.get]⟩

/-! ## What is stored for a file -/

/-- The facts of a version of a file that are no synonyms. -/
def factsOf (isSynonym : XmlObj → Bool) (contents : Str) : List XmlObj :=
  if contents.length = 0 then []
  else
    match halxmlReadfacts (halxmlOrdertags contents) with
    | .ok facts => facts.filter (!isSynonym ·)
    | .error _ => []

/-- A list holds the printed facts with the key. -/
def Prints (facts : List XmlObj) (key : Str) (list : List Str) : Prop :=
  ∀ s, s ∈ list ↔ ∃ fact ∈ facts, key ∈ factKeys fact ∧ s = fact.printXml

theorem mem_printXml {idb : IndexDb} {xfacts : List Nat} {s : Str} : s ∈ idb.printXml xfacts ↔
    ∃ i ∈ xfacts, ∃ fact, idb.uniquefacts[i]? = some fact ∧ s = fact.printXml := by
  simp only [IndexDb.printXml, List.mem_map, List.mem_filterMap]
  constructor
  · rintro ⟨fact, ⟨i, hi, hfact⟩, rfl⟩
    exact ⟨i, hi, fact, hfact, rfl⟩
  · rintro ⟨i, hi, fact, hfact, rfl⟩
    exact ⟨fact, ⟨i, hi, hfact⟩, rfl⟩

/-- The pointers of a key are those of the facts with the key. -/
theorem IndexDb.Indexed.prints {idb : IndexDb} (h : idb.Indexed) {key : Str} {xfacts : List Nat}
    (hkey : idb.index3chars.get key = some xfacts) :
    Prints idb.uniquefacts key (ord.enum (setAddAll [] (idb.printXml (ord.enum xfacts)))) := by
  have hmem := h.mem key
  rw [hkey, Option.getD_some] at hmem
  intro s
  rw [ord.mem_enum, mem_setAddAll, mem_printXml]
  constructor
  · rintro (h | ⟨i, hi, fact, hfact, rfl⟩)
    · cases h
    · obtain ⟨fact', hfact', hin⟩ := (hmem i).mp (ord.mem_enum.mp hi)
      rw [hfact] at hfact'
      cases hfact'
      exact ⟨fact, List.mem_of_getElem? hfact, hin, rfl⟩
  · rintro ⟨fact, hfact, hin, rfl⟩
    obtain ⟨i, hi⟩ := List.mem_iff_getElem?.mp hfact
    exact Or.inr ⟨i, ord.mem_enum.mpr ((hmem i).mpr ⟨fact, hi, hin⟩), fact, hi, rfl⟩

theorem IndexDb.Indexed.get_eq_none {idb : IndexDb} (h : idb.Indexed) {key : Str} :
    idb.index3chars.get key = none ↔ ∀ fact ∈ idb.uniquefacts, key ∉ factKeys fact := by
  constructor
  · intro hnone fact hfact hkey
    obtain ⟨i, hi⟩ := List.mem_iff_getElem?.mp hfact
    have hmem := (h.mem key i).mpr ⟨fact, hi, hkey⟩
    rw [hnone] at hmem
    cases hmem
  · intro hall
    cases hget : idb.index3chars.get key with
    | none => rfl
    | some xfacts =>
        obtain ⟨i, hi⟩ := List.exists_mem_of_ne_nil xfacts fun hnil =>
          h.nonempty key (by rw [hget, hnil])
        obtain ⟨fact, hfact, hkey⟩ := (h.mem key i).mp (by rw [hget]; exact hi)
        exact absurd hkey (hall fact (List.mem_of_getElem? hfact))

/-- Storing a key writes one file, and each key is stored once. -/
theorem foldl_storeKey {idb : IndexDb} (hcomplete : idb.complete = true)
    {entries : HashMap Str (List Nat)} (hunique : entries.Unique) (index : DiskIndex) (key : Str) :
    ((∀ xfacts, (key, xfacts) ∈ entries →
        (entries.foldl (storeKey ord idb) index key).get idb.filename =
          some (ord.enum (setAddAll [] (idb.printXml (ord.enum xfacts))))) ∧
      ((∀ xfacts, (key, xfacts) ∉ entries) →
        (entries.foldl (storeKey ord idb) index key).get idb.filename =
          (index key).get idb.filename)) ∧
      (∀ name, name ≠ idb.filename →
        (entries.foldl (storeKey ord idb) index key).get name = (index key).get name) ∧
      ((index key).Unique → (entries.foldl (storeKey ord idb) index key).Unique) := by
  induction entries generalizing index with
  | nil => exact ⟨⟨fun _ h => (by cases h), fun _ => rfl⟩, fun _ _ => rfl, id⟩
  | cons e entries ih =>
      obtain ⟨hhead, htail⟩ := List.pairwise_cons.mp hunique
      obtain ⟨⟨hin, hout⟩, hname, hrest⟩ := ih htail (storeKey ord idb index e)
      rw [List.foldl_cons]
      by_cases hkey : key = e.1
      · subst hkey
        have hnot : ∀ xfacts, (e.1, xfacts) ∉ entries := fun xfacts hx => hhead _ hx rfl
        have hstore : storeKey ord idb index e e.1 = (index e.1).put idb.filename
            (ord.enum (setAddAll [] (idb.printXml (ord.enum e.2)))) := by
          simp [storeKey, hcomplete, setAddAll]
        refine ⟨⟨fun xfacts hx => ?_, fun hx => absurd List.mem_cons_self (hx e.2)⟩,
          fun name hne => ?_, fun h => hrest ?_⟩
        · rcases List.mem_cons.mp hx with hx | hx
          · rw [hout hnot, hstore, HashMap.get_put, if_pos rfl, ← hx]
          · exact absurd hx (hnot xfacts)
        · rw [hname name hne, hstore, HashMap.get_put, if_neg hne]
        · rw [hstore]
          exact h.put _ _
      · have hstore : storeKey ord idb index e key = index key := Function.update_of_ne hkey _ _
        refine ⟨⟨fun xfacts hx => ?_, fun hx => ?_⟩, fun name hne => ?_, fun h => hrest ?_⟩
        · rcases List.mem_cons.mp hx with hx | hx
          · exact absurd (congrArg Prod.fst hx) hkey
          · exact hin xfacts hx
        · rw [hout fun xfacts h => hx xfacts (List.mem_cons_of_mem _ h), hstore]
        · rw [hname name hne, hstore]
        · rw [hstore]
          exact h

/-- The file of a key is written when a fact has the key. -/
theorem IndexDb.Indexed.toDisk {idb : IndexDb} (h : idb.Indexed) (hcomplete : idb.complete = true)
    (index : DiskIndex) (key : Str) :
    ((∃ fact ∈ idb.uniquefacts, key ∈ factKeys fact) → ∃ list,
        (idb.toDisk ord index key).get idb.filename = some list ∧
          Prints idb.uniquefacts key list) ∧
      ((∀ fact ∈ idb.uniquefacts, key ∉ factKeys fact) →
        (idb.toDisk ord index key).get idb.filename = (index key).get idb.filename) ∧
      (∀ name, name ≠ idb.filename →
        (idb.toDisk ord index key).get name = (index key).get name) ∧
      ((index key).Unique → (idb.toDisk ord index key).Unique) := by
  have hperm := ord.perm idb.index3chars
  have hunique : HashMap.Unique (ord.enum idb.index3chars) :=
    (hperm.pairwise_iff fun h => Ne.symm h).mpr h.unique
  obtain ⟨⟨hin, hout⟩, hname, hrest⟩ := @foldl_storeKey ord _ hcomplete _ hunique index key
  refine ⟨?_, ?_, hname, hrest⟩
  · rintro ⟨fact, hfact, hkey⟩
    cases hget : idb.index3chars.get key with
    | none => exact absurd hkey (h.get_eq_none.mp hget fact hfact)
    | some xfacts =>
        exact ⟨_, hin xfacts (ord.mem_enum.mpr (HashMap.mem_of_get hget)), h.prints hget⟩
  · intro hall
    refine hout fun xfacts hx => ?_
    have hget := h.unique.get (ord.mem_enum.mp hx)
    rw [h.get_eq_none.mpr hall] at hget
    cases hget

end Freehal.Grammar2012
