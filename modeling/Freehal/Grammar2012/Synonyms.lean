import Freehal.Grammar2012.DiskDb
import Freehal.Index.SynonymClasses

/-!
# The classes of the synonyms

The map gives every word its class as long as no synonym joins two classes. After such a synonym two
words of one class keep different sets.
-/

namespace Freehal.Grammar2012

open Index (setAdd setAddAll mem_setAdd mem_setAddAll Apart NeverJoins neverJoins_append_singleton)
open Lib (Tied Occurs run)

variable {db db' : DiskDb} {pairs : List (Str × Str)} {a b w v : Str} {i j : Nat}

/-! ## The map -/

theorem find_insert : (db.insert a i).find w =
    if w = a then some ((db.find a).getD i) else db.find w := by
  unfold DiskDb.insert
  cases h : db.find a with
  | some k =>
      simp only [Option.isSome_some, if_true, Option.getD_some]
      by_cases hw : w = a
      · rw [if_pos hw, hw, h]
      · rw [if_neg hw]
  | none =>
      simp only [Option.isSome_none, Bool.false_eq_true, if_false, Option.getD_none]
      rw [DiskDb.find] at h
      by_cases hw : w = a
      · simp [DiskDb.find, hw, List.lookup_append, h]
      · have hne : (w == a) = false := by simpa using hw
        simp [DiskDb.find, hw, List.lookup_append, List.lookup_cons, hne]

@[simp] theorem classAt_insert : (db.insert a i).classAt j = db.classAt j := by
  unfold DiskDb.insert
  split <;> rfl

@[simp] theorem find_modifySet (f : List Str → List Str) :
    (db.modifySet i f).find w = db.find w := rfl

theorem classAt_modifySet (f : List Str → List Str) (hi : i < db.sets.length) :
    (db.modifySet i f).classAt j = if j = i then f (db.classAt j) else db.classAt j := by
  by_cases hj : j = i
  · subst hj
    simp [DiskDb.classAt, DiskDb.modifySet, hi]
  · have hne : i ≠ j := fun h => hj h.symm
    simp [DiskDb.classAt, DiskDb.modifySet, hj, hne]

/-! ## The classes -/

/-- What the map promises: the words that occurred are known, the set of a word is its class, and
the words of a class have one set. -/
structure SynonymClasses (db : DiskDb) (pairs : List (Str × Str)) : Prop where
  known : ∀ w, (∃ i, db.find w = some i) ↔ Occurs pairs w
  class_ : ∀ w i, db.find w = some i → ∀ v, v ∈ db.classAt i ↔ Tied pairs w v
  same : ∀ w v, Tied pairs w v → db.find w = db.find v

theorem SynonymClasses.new (add : Bool) : SynonymClasses (DiskDb.new add) [] where
  known w := by simp [DiskDb.new, DiskDb.find, Occurs]
  class_ w i h := by simp [DiskDb.new, DiskDb.find] at h
  same w v h := rfl

theorem SynonymClasses.lt (h : SynonymClasses db pairs) (hw : db.find w = some i) :
    i < db.sets.length := by
  by_contra hle
  have hmem := (h.class_ w i hw w).mpr (Tied.refl w)
  rw [DiskDb.classAt, List.getD, List.getElem?_eq_none (by omega)] at hmem
  cases hmem

/-- Words with one set are of one class. -/
theorem SynonymClasses.tied (h : SynonymClasses db pairs) (hw : db.find w = some i)
    (hv : db.find v = some i) : Tied pairs w v :=
  (h.class_ w i hw v).mp ((h.class_ v i hv v).mpr (Tied.refl v))

theorem SynonymClasses.not_occurs (h : SynonymClasses db pairs) (hw : db.find w = none) :
    ¬ Occurs pairs w := by
  intro ho
  obtain ⟨i, hi⟩ := (h.known w).mpr ho
  rw [hw] at hi
  cases hi

/-- A new word `b` gets the set of the known word `a`. -/
theorem SynonymClasses.grow (h : SynonymClasses db pairs) {pairs' : List (Str × Str)}
    (ha : db.find a = some i) (hb : db.find b = none)
    (hfind : ∀ w, db'.find w = if w = b then some i else db.find w)
    (hclass : ∀ j v, v ∈ db'.classAt j ↔ v ∈ db.classAt j ∨ j = i ∧ v = b)
    (hocc : ∀ w, Occurs pairs' w ↔ Occurs pairs w ∨ w = b)
    (htied : ∀ x y, Tied pairs' x y ↔ Tied pairs x y
      ∨ Tied pairs x a ∧ Tied pairs b y ∨ Tied pairs x b ∧ Tied pairs a y) :
    SynonymClasses db' pairs' := by
  have hnew := h.not_occurs hb
  have hbt : ∀ x, Tied pairs b x ↔ x = b := fun x =>
    ⟨fun hx => hx.eq_of_not_occurs hnew, fun hx => hx ▸ Tied.refl x⟩
  have htb : ∀ x, Tied pairs x b ↔ x = b := fun x => ⟨fun hx => (hbt x).mp hx.symm,
    fun hx => hx ▸ Tied.refl x⟩
  have hab : a ≠ b := by
    rintro rfl
    rw [hb] at ha
    cases ha
  have htied' : ∀ x y, Tied pairs' x y ↔ Tied pairs x y
      ∨ Tied pairs x a ∧ y = b ∨ x = b ∧ Tied pairs a y := by
    intro x y
    rw [htied, hbt, htb]
  refine ⟨?_, ?_, ?_⟩
  · intro w
    rw [hocc, ← h.known, hfind]
    by_cases hw : w = b
    · simp [hw]
    · simp [hw]
  · intro w j hw v
    rw [hfind] at hw
    rw [hclass, htied']
    by_cases hwb : w = b
    · rw [if_pos hwb, Option.some.injEq] at hw
      subst hw hwb
      rw [h.class_ a i ha v, hbt]
      constructor
      · rintro (hv | ⟨-, hv⟩)
        · exact Or.inr (Or.inr ⟨rfl, hv⟩)
        · exact Or.inl hv
      · rintro (hv | ⟨hwa, -⟩ | ⟨-, hv⟩)
        · exact Or.inr ⟨rfl, hv⟩
        · exact absurd ((hbt a).mp hwa) hab
        · exact Or.inl hv
    · rw [if_neg hwb] at hw
      rw [h.class_ w j hw v]
      have hji : j = i ↔ Tied pairs w a := by
        constructor
        · rintro rfl
          exact h.tied hw ha
        · intro ht
          have := h.same w a ht
          rw [hw, ha, Option.some.injEq] at this
          exact this
      simp [hji, hwb]
  · intro w v hwv
    rw [hfind, hfind]
    rcases (htied' w v).mp hwv with ht | ⟨ht, rfl⟩ | ⟨rfl, ht⟩
    · by_cases hw : w = b
      · subst hw
        rw [(hbt v).mp ht]
      · have hv : v ≠ b := by
          rintro rfl
          exact hw ((htb w).mp ht)
        rw [if_neg hw, if_neg hv]
        exact h.same w v ht
    · have hw : w ≠ v := by
        rintro rfl
        exact hab ((hbt a).mp ht)
      rw [if_neg hw, if_pos rfl, h.same w a ht, ha]
    · have hv : v ≠ w := by
        rintro rfl
        exact hab ((htb a).mp ht)
      rw [if_pos rfl, if_neg hv, ← h.same a v ht, ha]

/-- Two new words get a set of their own. -/
theorem SynonymClasses.push (h : SynonymClasses db pairs) (ha : db.find a = none)
    (hb : db.find b = none) (hi : ∀ w j, db.find w = some j → j ≠ i)
    (hfind : ∀ w, db'.find w = if w = a ∨ w = b then some i else db.find w)
    (hnew : ∀ v, v ∈ db'.classAt i ↔ v = a ∨ v = b)
    (hold : ∀ j, j ≠ i → ∀ v, v ∈ db'.classAt j ↔ v ∈ db.classAt j) :
    SynonymClasses db' (pairs ++ [(a, b)]) := by
  have hat : ∀ x, Tied pairs a x ↔ x = a := fun x =>
    ⟨fun hx => hx.eq_of_not_occurs (h.not_occurs ha), fun hx => hx ▸ Tied.refl x⟩
  have hbt : ∀ x, Tied pairs b x ↔ x = b := fun x =>
    ⟨fun hx => hx.eq_of_not_occurs (h.not_occurs hb), fun hx => hx ▸ Tied.refl x⟩
  have hta : ∀ x, Tied pairs x a ↔ x = a := fun x =>
    ⟨fun hx => (hat x).mp hx.symm, fun hx => hx ▸ Tied.refl x⟩
  have htb : ∀ x, Tied pairs x b ↔ x = b := fun x =>
    ⟨fun hx => (hbt x).mp hx.symm, fun hx => hx ▸ Tied.refl x⟩
  have htied : ∀ x y, Tied (pairs ++ [(a, b)]) x y ↔ Tied pairs x y
      ∨ x = a ∧ y = b ∨ x = b ∧ y = a := by
    intro x y
    rw [Tied.append_singleton, hat, hbt, hta, htb]
  refine ⟨?_, ?_, ?_⟩
  · intro w
    rw [Lib.occurs_append_singleton, ← h.known, hfind]
    by_cases hw : w = a ∨ w = b
    · simp [hw]
    · simp [hw]
  · intro w j hw v
    rw [hfind] at hw
    rw [htied]
    by_cases hwab : w = a ∨ w = b
    · rw [if_pos hwab, Option.some.injEq] at hw
      subst hw
      rw [hnew]
      rcases hwab with rfl | rfl
      · rw [hat]
        constructor
        · rintro (hv | hv)
          · exact Or.inl hv
          · exact Or.inr (Or.inl ⟨rfl, hv⟩)
        · rintro (hv | ⟨-, hv⟩ | ⟨-, hv⟩)
          · exact Or.inl hv
          · exact Or.inr hv
          · exact Or.inl hv
      · rw [hbt]
        constructor
        · rintro (hv | hv)
          · exact Or.inr (Or.inr ⟨rfl, hv⟩)
          · exact Or.inl hv
        · rintro (hv | ⟨-, hv⟩ | ⟨-, hv⟩)
          · exact Or.inr hv
          · exact Or.inr hv
          · exact Or.inl hv
    · rw [if_neg hwab] at hw
      rw [hold j (hi w j hw), h.class_ w j hw v]
      simp only [not_or] at hwab
      simp [hwab]
  · intro w v hwv
    rw [hfind, hfind]
    rcases (htied w v).mp hwv with ht | ⟨rfl, rfl⟩ | ⟨rfl, rfl⟩
    · have hiff : (w = a ∨ w = b) ↔ (v = a ∨ v = b) := by
        constructor
        · rintro (rfl | rfl)
          · exact Or.inl ((hat v).mp ht)
          · exact Or.inr ((hbt v).mp ht)
        · rintro (rfl | rfl)
          · exact Or.inl ((hta w).mp ht)
          · exact Or.inr ((htb w).mp ht)
      by_cases hw : w = a ∨ w = b
      · rw [if_pos hw, if_pos (hiff.mp hw)]
      · rw [if_neg hw, if_neg fun hv => hw (hiff.mpr hv)]
        exact h.same w v ht
    · rw [if_pos (Or.inl rfl), if_pos (Or.inr rfl)]
    · rw [if_pos (Or.inr rfl), if_pos (Or.inl rfl)]

/-! ## One synonym -/

/-- Two known words of one class stay as they are. -/
theorem SynonymClasses.keep (h : SynonymClasses db pairs) (hab : Tied pairs a b)
    (ha : db.find a = some i) (hb : db.find b = some i)
    (hfind : ∀ w, db'.find w = db.find w)
    (hclass : ∀ j v, v ∈ db'.classAt j ↔ v ∈ db.classAt j) :
    SynonymClasses db' (pairs ++ [(a, b)]) := by
  have htied : ∀ x y, Tied (pairs ++ [(a, b)]) x y ↔ Tied pairs x y := by
    intro x y
    rw [Tied.append_singleton]
    constructor
    · rintro (ht | ⟨h₁, h₂⟩ | ⟨h₁, h₂⟩)
      · exact ht
      · exact (h₁.trans hab).trans h₂
      · exact (h₁.trans hab.symm).trans h₂
    · exact Or.inl
  refine ⟨?_, ?_, ?_⟩
  · intro w
    rw [hfind, h.known, Lib.occurs_append_singleton]
    constructor
    · exact Or.inl
    · rintro (ho | rfl | rfl)
      · exact ho
      · exact (h.known w).mp ⟨i, ha⟩
      · exact (h.known w).mp ⟨i, hb⟩
  · intro w j hw v
    rw [hfind] at hw
    rw [hclass, htied]
    exact h.class_ w j hw v
  · intro w v hwv
    rw [hfind, hfind]
    exact h.same w v ((htied w v).mp hwv)

theorem mem_setBoth {set : List Str} : v ∈ setAdd (setAdd set a) b ↔ v ∈ set ∨ v = a ∨ v = b := by
  rw [mem_setAdd, mem_setAdd, or_assoc]

theorem SynonymClasses.step (h : SynonymClasses db pairs) (hc : Apart pairs (a, b)) :
    SynonymClasses (db.insertTexts (a, b)) (pairs ++ [(a, b)]) := by
  have hself : ∀ w i, db.find w = some i → w ∈ db.classAt i := fun w i hw =>
    (h.class_ w i hw w).mpr (Tied.refl w)
  cases ha : db.find a with
  | some i =>
      have hi := h.lt ha
      cases hb : db.find b with
      | some j =>
          have hab : Tied pairs a b := hc ((h.known a).mp ⟨i, ha⟩) ((h.known b).mp ⟨j, hb⟩)
          obtain rfl : i = j := by
            have hsame := h.same a b hab
            rw [ha, hb, Option.some.injEq] at hsame
            exact hsame
          apply h.keep hab ha hb
          · intro w
            simp [DiskDb.insertTexts, DiskDb.join, ha, hb]
          · intro k v
            simp only [DiskDb.insertTexts, DiskDb.join, ha, hb, ne_eq, not_true_eq_false, if_false]
            rw [classAt_modifySet _ hi]
            by_cases hk : k = i
            · rw [if_pos hk, mem_setBoth, hk]
              constructor
              · rintro (hv | rfl | rfl)
                · exact hv
                · exact hself v i ha
                · exact hself v i hb
              · exact Or.inl
            · rw [if_neg hk]
      | none =>
          apply h.grow ha hb
          · intro w
            simp [DiskDb.insertTexts, DiskDb.join, ha, hb, find_insert]
          · intro k v
            simp only [DiskDb.insertTexts, DiskDb.join, ha, hb]
            rw [classAt_modifySet _ (by rw [DiskDb.insert]; split <;> exact hi), classAt_insert]
            by_cases hk : k = i
            · rw [if_pos hk, mem_setBoth, hk]
              constructor
              · rintro (hv | rfl | rfl)
                · exact Or.inl hv
                · exact Or.inl (hself v i ha)
                · exact Or.inr ⟨rfl, rfl⟩
              · rintro (hv | ⟨-, rfl⟩)
                · exact Or.inl hv
                · exact Or.inr (Or.inr rfl)
            · rw [if_neg hk]
              simp [hk]
          · intro w
            have ho : w = a → Occurs pairs w := fun he => he ▸ (h.known a).mp ⟨i, ha⟩
            rw [Lib.occurs_append_singleton, ← or_assoc, or_iff_left_of_imp ho]
          · exact fun x y => Tied.append_singleton
  | none =>
      cases hb : db.find b with
      | some i =>
          have hi := h.lt hb
          apply h.grow hb ha
          · intro w
            simp [DiskDb.insertTexts, DiskDb.join, ha, hb, find_insert]
          · intro k v
            simp only [DiskDb.insertTexts, DiskDb.join, ha, hb]
            rw [classAt_modifySet _ (by rw [DiskDb.insert]; split <;> exact hi), classAt_insert]
            by_cases hk : k = i
            · rw [if_pos hk, mem_setBoth, hk]
              constructor
              · rintro (hv | rfl | rfl)
                · exact Or.inl hv
                · exact Or.inr ⟨rfl, rfl⟩
                · exact Or.inl (hself v i hb)
              · rintro (hv | ⟨-, rfl⟩)
                · exact Or.inl hv
                · exact Or.inr (Or.inl rfl)
            · rw [if_neg hk]
              simp [hk]
          · intro w
            have ho : w = b → Occurs pairs w := fun he => he ▸ (h.known b).mp ⟨i, hb⟩
            rw [Lib.occurs_append_singleton, or_comm (a := w = a), ← or_assoc,
              or_iff_left_of_imp ho]
          · intro x y
            rw [Tied.append_singleton, or_comm (a := _ ∧ _)]
      | none =>
          let db₁ : DiskDb := { db with sets := db.sets ++ [[]] }
          let db₂ := (db₁.insert a db.sets.length).insert b db.sets.length
          have hlt : db.sets.length < db₂.sets.length := by
            have hsets : ∀ (d : DiskDb) (t : Str) (k : Nat), (d.insert t k).sets = d.sets := by
              intro d t k
              rw [DiskDb.insert]
              split <;> rfl
            simp only [db₂, hsets, db₁, List.length_append, List.length_singleton]
            omega
          have hins : db.insertTexts (a, b)
              = db₂.modifySet db.sets.length fun set => setAdd (setAdd set a) b := by
            simp only [DiskDb.insertTexts, DiskDb.join, ha, hb, db₂, db₁]
          have hclass₁ : ∀ j, db₂.classAt j = db.classAt j := by
            intro j
            simp only [db₂, classAt_insert]
            by_cases hj : j < db.sets.length
            · simp [db₁, DiskDb.classAt, List.getElem?_append_left hj]
            · by_cases hj' : j = db.sets.length
              · simp [db₁, DiskDb.classAt, hj']
              · simp [db₁, DiskDb.classAt, List.getElem?_eq_none (l := db.sets) (i := j) (by omega),
                  List.getElem?_eq_none (l := db.sets ++ [[]]) (i := j) (by simp; omega)]
          have hfind₁ : ∀ w, db₁.find w = db.find w := fun _ => rfl
          have hempty : db.classAt db.sets.length = [] := by simp [DiskDb.classAt]
          rw [hins]
          apply h.push ha hb (i := db.sets.length)
          · intro w j hw
            have := h.lt hw
            omega
          · intro w
            rw [find_modifySet]
            simp only [db₂, find_insert, hfind₁, ha, hb, Option.getD_none]
            by_cases hwb : w = b
            · by_cases hba : b = a <;> simp [hwb, hba]
            · by_cases hwa : w = a
              · have hab : ¬ a = b := fun he => hwb (hwa.trans he)
                simp [hwa, hab]
              · simp [hwb, hwa]
          · intro v
            rw [classAt_modifySet _ hlt, if_pos rfl, hclass₁, hempty, mem_setBoth]
            simp
          · intro j hj v
            rw [classAt_modifySet _ hlt, if_neg hj, hclass₁]

/-- A known word keeps its set. -/
theorem find_insertTexts (hw : db.find w = some i) : (db.insertTexts (a, b)).find w = some i := by
  have hins : ∀ (d : DiskDb) (t : Str) (k : Nat), d.find w = some i →
      (d.insert t k).find w = some i := by
    intro d t k hd
    rw [find_insert]
    by_cases hwt : w = t
    · rw [if_pos hwt, ← hwt, hd]
      rfl
    · rw [if_neg hwt]
      exact hd
  simp only [DiskDb.insertTexts, find_modifySet]
  unfold DiskDb.join
  split
  · split
    · exact hins _ _ _ hw
    · exact hw
  · exact hins _ _ _ hw
  · exact hins _ _ _ hw
  · exact hins _ _ _ (hins _ _ _ hw)

/-- The words of a call are known afterwards. -/
theorem known_insertTexts (db : DiskDb) (a b : Str) :
    (∃ i, (db.insertTexts (a, b)).find a = some i) ∧
      ∃ i, (db.insertTexts (a, b)).find b = some i := by
  have hself : ∀ (d : DiskDb) (t : Str) (k : Nat), ∃ i, (d.insert t k).find t = some i := by
    intro d t k
    rw [find_insert, if_pos rfl]
    exact ⟨_, rfl⟩
  cases ha : db.find a with
  | some i =>
      refine ⟨⟨i, find_insertTexts ha⟩, ?_⟩
      cases hb : db.find b with
      | some j => exact ⟨j, find_insertTexts hb⟩
      | none =>
          simp only [DiskDb.insertTexts, DiskDb.join, ha, hb, find_modifySet]
          exact hself _ _ _
  | none =>
      cases hb : db.find b with
      | some j =>
          refine ⟨?_, ⟨j, find_insertTexts hb⟩⟩
          simp only [DiskDb.insertTexts, DiskDb.join, ha, hb, find_modifySet]
          exact hself _ _ _
      | none =>
          simp only [DiskDb.insertTexts, DiskDb.join, ha, hb, find_modifySet]
          refine ⟨?_, hself _ _ _⟩
          rw [find_insert]
          by_cases hab : a = b
          · rw [if_pos hab]
            exact ⟨_, rfl⟩
          · rw [if_neg hab]
            exact hself _ _ _

/-! ## Sequences of synonyms -/

/-- The words of a class have one set. -/
def OneSet (db : DiskDb) (pairs : List (Str × Str)) : Prop :=
  ∀ w v, Tied pairs w v → db.find w = db.find v

theorem run_known (add : Bool) (pairs : List (Str × Str)) (h : Occurs pairs w) :
    ∃ i, (run DiskDb.insertTexts (DiskDb.new add) pairs).find w = some i := by
  induction pairs using List.reverseRecOn with
  | nil => simp [Occurs] at h
  | append_singleton pairs pair ih =>
      obtain ⟨a, b⟩ := pair
      rw [Lib.run_append]
      rcases Lib.occurs_append_singleton.mp h with h | rfl | rfl
      · obtain ⟨i, hi⟩ := ih h
        exact ⟨i, find_insertTexts hi⟩
      · exact (known_insertTexts _ w b).1
      · exact (known_insertTexts _ a w).2

theorem run_classes (add : Bool) (pairs : List (Str × Str)) :
    (NeverJoins pairs → SynonymClasses (run DiskDb.insertTexts (DiskDb.new add) pairs) pairs)
      ∧ (OneSet (run DiskDb.insertTexts (DiskDb.new add) pairs) pairs → NeverJoins pairs) := by
  induction pairs using List.reverseRecOn with
  | nil => exact ⟨fun _ => SynonymClasses.new add, fun _ before call after h => (by simp at h)⟩
  | append_singleton pairs pair ih =>
      obtain ⟨a, b⟩ := pair
      have hmono : ∀ {x y}, Tied pairs x y → Tied (pairs ++ [(a, b)]) x y := fun h =>
        h.mono (List.subset_append_left _ _)
      have hkeep : ∀ {w i}, (run DiskDb.insertTexts (DiskDb.new add) pairs).find w = some i →
          (run DiskDb.insertTexts (DiskDb.new add) (pairs ++ [(a, b)])).find w = some i := by
        intro w i hw
        rw [Lib.run_append]
        exact find_insertTexts hw
      rw [neverJoins_append_singleton]
      refine ⟨fun h => ?_, fun hs => ?_⟩
      · rw [Lib.run_append]
        exact (ih.1 h.1).step h.2
      · have hbefore : OneSet (run DiskDb.insertTexts (DiskDb.new add) pairs) pairs := by
          intro w v hwv
          rcases hwv.occurs with rfl | ⟨hw, hv⟩
          · rfl
          · obtain ⟨i, hi⟩ := run_known add pairs hw
            obtain ⟨j, hj⟩ := run_known add pairs hv
            have hsame := hs w v (hmono hwv)
            rw [hkeep hi, hkeep hj] at hsame
            rw [hi, hj, hsame]
        have hnever := ih.2 hbefore
        refine ⟨hnever, fun ha hb => ?_⟩
        -- Both words are known, so they had one set before this call.
        obtain ⟨i, hi⟩ := run_known add pairs ha
        obtain ⟨j, hj⟩ := run_known add pairs hb
        have hsame := hs a b (Tied.of_mem (by simp))
        rw [hkeep hi, hkeep hj, Option.some.injEq] at hsame
        subst hsame
        exact (ih.1 hnever).tied hi hj

variable (isSynonym : XmlObj → Bool)

/-- The pairs of texts that the calls insert. -/
def insertedPairs (doAddSynonyms : Bool) (facts : List XmlObj) : List (Str × Str) :=
  if doAddSynonyms then (facts.filter isSynonym).map synonymTexts else []

theorem doAddSynonyms_insertTexts (db : DiskDb) (call : Str × Str) :
    (db.insertTexts call).doAddSynonyms = db.doAddSynonyms := by
  have hins : ∀ (d : DiskDb) (t : Str) (k : Nat),
      (d.insert t k).doAddSynonyms = d.doAddSynonyms := by
    intro d t k
    rw [DiskDb.insert]
    split <;> rfl
  change (db.join call.1 call.2).1.doAddSynonyms = db.doAddSynonyms
  unfold DiskDb.join
  split
  · split
    · exact hins _ _ _
    · rfl
  · exact hins _ _ _
  · exact hins _ _ _
  · exact (hins _ _ _).trans (hins _ _ _)

/-- Only the synonyms among the facts change the map. -/
theorem run_insertSynonym (db : DiskDb) (facts : List XmlObj) :
    run (DiskDb.insertSynonym isSynonym) db facts
      = run DiskDb.insertTexts db (insertedPairs isSynonym db.doAddSynonyms facts) := by
  induction facts generalizing db with
  | nil => simp [insertedPairs]
  | cons fact facts ih =>
      rw [Lib.run_cons, ih]
      cases hadd : db.doAddSynonyms with
      | false => simp [DiskDb.insertSynonym, hadd, insertedPairs]
      | true =>
          by_cases hs : isSynonym fact
          · simp [DiskDb.insertSynonym, hadd, hs, insertedPairs, doAddSynonyms_insertTexts]
          · simp [DiskDb.insertSynonym, hadd, hs, insertedPairs]

/-- The map gives every word its class exactly where no synonym joins two classes. -/
theorem synonym_sets (doAddSynonyms : Bool) (facts : List XmlObj) :
    SynonymClasses (run (DiskDb.insertSynonym isSynonym) (DiskDb.new doAddSynonyms) facts)
        (insertedPairs isSynonym doAddSynonyms facts)
      ↔ NeverJoins (insertedPairs isSynonym doAddSynonyms facts) := by
  rw [run_insertSynonym isSynonym]
  exact ⟨fun h => (run_classes doAddSynonyms _).2 h.same, (run_classes doAddSynonyms _).1⟩

/-- The fact that two texts are equal. -/
def synonymOf (text1 text2 : String) : XmlObj :=
  .list "fact".toList [.list "subject".toList [.text text1.toList],
    .list "verb".toList [.text "=".toList], .list "object".toList [.text text2.toList]]

/-- The class of `c` and `d` is joined with that of `a` and `b`, but `d` keeps its set. -/
theorem synonym_sets_apart : ¬ ∀ (isSynonym : XmlObj → Bool) (facts : List XmlObj),
    SynonymClasses (run (DiskDb.insertSynonym isSynonym) (DiskDb.new true) facts)
      (insertedPairs isSynonym true facts) := by
  intro h
  have hs := (h (fun _ => true) [synonymOf "a" "b", synonymOf "c" "d", synonymOf "a" "c"]).same
    ['a'] ['d'] (Tied.trans (y := ['c']) (Tied.of_mem (by decide)) (Tied.of_mem (by decide)))
  exact absurd hs (by decide)

end Freehal.Grammar2012
