import Freehal.Index.SynonymIndex

/-!
# The classes of the synonym index

The sets of the index are the classes of the words as long as no call joins two classes. After
such a call two sets overlap for good.
-/

namespace Freehal.Index

open Lib (Tied Occurs run)

variable {map map' : SynonymIndex} {calls : List (Str × Str)} {call : Str × Str} {set : List Str}
  {word w v : Str}

theorem mem_setAdd : v ∈ setAdd set word ↔ v ∈ set ∨ v = word := by
  unfold setAdd
  split
  · case isTrue hmem =>
      constructor
      · exact Or.inl
      · intro h
        rcases h with h | rfl
        · exact h
        · exact List.contains_iff_mem.mp hmem
  · simp

theorem mem_setAddAll {words : List Str} : v ∈ setAddAll set words ↔ v ∈ set ∨ v ∈ words := by
  induction words generalizing set with
  | nil => simp [setAddAll]
  | cons word words ih =>
      have hcons : setAddAll set (word :: words) = setAddAll (setAdd set word) words := rfl
      rw [hcons, ih, mem_setAdd, List.mem_cons, or_assoc]

/-! ## Finding a set -/

theorem indexOf_loop (map : SynonymIndex) (i : Nat) (found : Option Nat) :
    (indexOf word map i found = found ∧ ∀ set ∈ map, word ∉ set)
      ∨ ∃ j set, indexOf word map i found = some (i + j) ∧ map[j]? = some set ∧ word ∈ set := by
  induction map generalizing i found with
  | nil => exact Or.inl ⟨rfl, fun _ h => (by cases h)⟩
  | cons set map ih =>
      simp only [indexOf]
      rcases ih (i + 1) (if set.contains word then some i else found) with
        ⟨heq, hnone⟩ | ⟨j, set', h⟩
      · by_cases hw : word ∈ set
        · right
          have hc : set.contains word := List.contains_iff_mem.mpr hw
          exact ⟨0, set, by rw [heq, if_pos hc, Nat.add_zero], rfl, hw⟩
        · left
          have hc : ¬ set.contains word := fun hc => hw (List.contains_iff_mem.mp hc)
          rw [heq, if_neg hc]
          refine ⟨rfl, fun set' hset' => ?_⟩
          rcases List.mem_cons.mp hset' with rfl | hset'
          · exact hw
          · exact hnone set' hset'
      · right
        exact ⟨j + 1, set', by rw [h.1]; congr 1; omega, by simpa using h.2.1, h.2.2⟩

theorem indexOf_eq_none (h : indexOf word map 0 none = none) : ∀ set ∈ map, word ∉ set := by
  rcases indexOf_loop map 0 none with ⟨_, hnone⟩ | ⟨j, _, hj, _⟩
  · exact hnone
  · rw [h] at hj
    cases hj

theorem indexOf_eq_some {i : Nat} (h : indexOf word map 0 none = some i) :
    ∃ set, map[i]? = some set ∧ word ∈ set := by
  rcases indexOf_loop map 0 none with ⟨hnone, _⟩ | ⟨j, set, hj, hset⟩
  · rw [h] at hnone
    cases hnone
  · rw [h, Nat.zero_add, Option.some.injEq] at hj
    subst hj
    exact ⟨set, hset⟩

/-! ## Sets that overlap -/

/-- No word is in two sets. -/
def Disjoint (map : SynonymIndex) : Prop :=
  ∀ (i j : Nat) (set set' : List Str), map[i]? = some set → map[j]? = some set' →
    ∀ word ∈ set, word ∈ set' → i = j

/-- Sets keep their place and only grow. -/
def Grows (map map' : SynonymIndex) : Prop :=
  ∀ (i : Nat) (set : List Str), map[i]? = some set → ∃ set', map'[i]? = some set' ∧ set ⊆ set'

theorem grows_modify (i : Nat) {f : List Str → List Str} (hf : ∀ set, set ⊆ f set) :
    Grows map (map.modify i f) := by
  intro j set hset
  rw [List.getElem?_modify, hset]
  by_cases hij : i = j
  · exact ⟨f set, by simp [hij], hf set⟩
  · exact ⟨set, by simp [hij], fun _ h => h⟩

theorem subset_setAdd : set ⊆ setAdd set word := fun _ h => mem_setAdd.mpr (Or.inl h)

theorem addSynonyms_grows : Grows map (addSynonyms map call) := by
  unfold addSynonyms
  split
  · intro i set hset
    have hi : i < map.length := (List.getElem?_eq_some_iff.mp hset).1
    exact ⟨set, by rw [List.getElem?_append_left hi]; exact hset, fun _ h => h⟩
  · exact grows_modify _ fun _ => subset_setAdd
  · exact grows_modify _ fun _ => subset_setAdd
  · exact grows_modify _ fun _ _ h => mem_setAddAll.mpr (Or.inl h)

theorem disjoint_of_grows (h : Grows map map') (hd : Disjoint map') : Disjoint map := by
  intro i j set set' hi hj word hw hw'
  obtain ⟨t, ht, hsub⟩ := h i set hi
  obtain ⟨t', ht', hsub'⟩ := h j set' hj
  exact hd i j t t' ht ht' word (hsub hw) (hsub' hw')

/-! ## The sets as classes -/

/-- The sets are the classes of the words that occurred. -/
structure Classes (map : SynonymIndex) (calls : List (Str × Str)) : Prop where
  disjoint : Disjoint map
  cover : ∀ w, Occurs calls w ↔ ∃ (i : Nat) (set : List Str), map[i]? = some set ∧ w ∈ set
  joined : ∀ (i : Nat) (set : List Str), map[i]? = some set → ∀ w ∈ set, ∀ v,
    v ∈ set ↔ Tied calls w v

theorem Classes.empty : Classes [] [] where
  disjoint _ _ _ _ h := by cases h
  cover w := by simp [Occurs]
  joined _ _ h := by cases h

theorem Classes.occurs (h : Classes map calls) {i : Nat} (hi : map[i]? = some set)
    (hw : w ∈ set) : Occurs calls w := (h.cover w).mpr ⟨i, set, hi, hw⟩

theorem Classes.occurs_of_indexOf (h : Classes map calls) {i : Nat}
    (hi : indexOf word map 0 none = some i) : Occurs calls word := by
  obtain ⟨set, hset, hw⟩ := indexOf_eq_some hi
  exact h.occurs hset hw

theorem Classes.not_occurs_of_indexOf (h : Classes map calls)
    (hi : indexOf word map 0 none = none) : ¬ Occurs calls word := by
  intro ho
  obtain ⟨i, set, hset, hw⟩ := (h.cover word).mp ho
  exact indexOf_eq_none hi set (List.mem_of_getElem? hset) hw

/-- A word that did not occur joins nothing, neither on the left nor on the right. -/
theorem not_joined (hw : ¬ Occurs calls w) (hv : Occurs calls v) : ¬ Tied calls v w := by
  intro h
  exact hw (h.symm.eq_of_not_occurs hw ▸ hv)

/-- Two new words get a set of their own. -/
theorem Classes.push (h : Classes map calls) {a b : Str} (ha : ¬ Occurs calls a)
    (hb : ¬ Occurs calls b) : Classes (map ++ [setAdd [a] b]) (calls ++ [(a, b)]) := by
  have hnew : ∀ w, w ∈ setAdd [a] b ↔ w = a ∨ w = b := fun w => by simp [mem_setAdd]
  have hget : ∀ (i : Nat) (set : List Str), (map ++ [setAdd [a] b])[i]? = some set ↔
      map[i]? = some set ∨ i = map.length ∧ set = setAdd [a] b := by
    intro i set
    rw [List.getElem?_append]
    split
    · rename_i hi
      constructor
      · exact Or.inl
      · intro hor
        exact hor.resolve_right fun hr => by omega
    · rename_i hi
      have hnone : map[i]? = none := List.getElem?_eq_none (by omega)
      by_cases heq : i = map.length
      · subst heq
        simp [eq_comm]
      · have hlt : (i - map.length) ≠ 0 := by omega
        simp [hnone, heq, hlt]
  have hold : ∀ (i : Nat) (set : List Str), map[i]? = some set → ∀ w ∈ set, w ≠ a ∧ w ≠ b := by
    intro i set hi w hw
    exact ⟨fun he => ha (he ▸ h.occurs hi hw), fun he => hb (he ▸ h.occurs hi hw)⟩
  refine ⟨?_, ?_, ?_⟩
  · intro i j set set' hi hj word hw hw'
    rcases (hget i set).mp hi with hi | ⟨hlast, rfl⟩
    · rcases (hget j set').mp hj with hj | ⟨_, rfl⟩
      · exact h.disjoint i j set set' hi hj word hw hw'
      · obtain ⟨hne, hne'⟩ := hold i set hi word hw
        exact absurd ((hnew word).mp hw') (by simp [hne, hne'])
    · rcases (hget j set').mp hj with hj | ⟨hlast', _⟩
      · obtain ⟨hne, hne'⟩ := hold j set' hj word hw'
        exact absurd ((hnew word).mp hw) (by simp [hne, hne'])
      · exact hlast.trans hlast'.symm
  · intro w
    rw [Lib.occurs_append_singleton, h.cover w]
    constructor
    · intro hor
      rcases hor with ⟨i, set, hi, hw⟩ | hw
      · exact ⟨i, set, (hget i set).mpr (Or.inl hi), hw⟩
      · exact ⟨map.length, _, (hget _ _).mpr (Or.inr ⟨rfl, rfl⟩), (hnew w).mpr hw⟩
    · intro hex
      obtain ⟨i, set, hi, hw⟩ := hex
      rcases (hget i set).mp hi with hi | ⟨_, rfl⟩
      · exact Or.inl ⟨i, set, hi, hw⟩
      · exact Or.inr ((hnew w).mp hw)
  · intro i set hi w hw v
    rw [Tied.append_singleton]
    rcases (hget i set).mp hi with hi | ⟨_, rfl⟩
    · have ho := h.occurs hi hw
      rw [h.joined i set hi w hw v]
      simp [not_joined ha ho, not_joined hb ho]
    · have hja : ∀ x, Tied calls a x ↔ x = a := fun x =>
        ⟨fun hj => hj.eq_of_not_occurs ha, fun he => by rw [he]; exact Tied.refl a⟩
      have hjb : ∀ x, Tied calls b x ↔ x = b := fun x =>
        ⟨fun hj => hj.eq_of_not_occurs hb, fun he => by rw [he]; exact Tied.refl b⟩
      rw [hnew v, hja v, hjb v]
      rcases (hnew w).mp hw with rfl | rfl
      · rw [hja v]
        constructor
        · intro hor
          exact hor.imp id fun hv => Or.inl ⟨Tied.refl _, hv⟩
        · intro hor
          rcases hor with hv | ⟨_, hv⟩ | ⟨_, hv⟩
          · exact Or.inl hv
          · exact Or.inr hv
          · exact Or.inl hv
      · rw [hjb v]
        constructor
        · intro hor
          rcases hor with hv | hv
          · exact Or.inr (Or.inr ⟨Tied.refl _, hv⟩)
          · exact Or.inl hv
        · intro hor
          rcases hor with hv | ⟨_, hv⟩ | ⟨_, hv⟩
          · exact Or.inr hv
          · exact Or.inr hv
          · exact Or.inl hv

/-- A new word is added to the class that it is joined with. -/
theorem Classes.grow (h : Classes map calls) {calls' : List (Str × Str)} {a b : Str} {i : Nat}
    (hi : map[i]? = some set) (ha : a ∈ set) (hb : ¬ Occurs calls b)
    (hocc : ∀ w, Occurs calls' w ↔ Occurs calls w ∨ w = b)
    (hjoin : ∀ x y, Tied calls' x y ↔ Tied calls x y
      ∨ Tied calls x a ∧ Tied calls b y ∨ Tied calls x b ∧ Tied calls a y) :
    Classes (map.modify i (setAdd · b)) calls' := by
  have hget : ∀ (j : Nat) (t : List Str), (map.modify i (setAdd · b))[j]? = some t ↔
      ∃ s, map[j]? = some s ∧ t = if i = j then setAdd s b else s := by
    intro j t
    rw [List.getElem?_modify]
    cases map[j]? with
    | none => simp
    | some s => simp [eq_comm]
  -- the word is in the set of `a` and in no other
  have hmem : ∀ (j : Nat) (s : List Str), map[j]? = some s → ∀ v,
      (v ∈ if i = j then setAdd s b else s) ↔ v ∈ s ∨ i = j ∧ v = b := by
    intro j s _ v
    by_cases hij : i = j
    · simp [hij, mem_setAdd]
    · simp [hij]
  have hold : ∀ (j : Nat) (s : List Str), map[j]? = some s → b ∉ s :=
    fun j s hj hs => hb (h.occurs hj hs)
  have hjb : ∀ x, Tied calls b x ↔ x = b := fun x =>
    ⟨fun hj => hj.eq_of_not_occurs hb, fun he => by rw [he]; exact Tied.refl b⟩
  have hset : ∀ x, x ∈ set ↔ Tied calls a x := h.joined i set hi a ha
  refine ⟨?_, ?_, ?_⟩
  · intro j k t t' hj hk word hw hw'
    obtain ⟨s, hs, rfl⟩ := (hget j t).mp hj
    obtain ⟨s', hs', rfl⟩ := (hget k t').mp hk
    rcases (hmem j s hs word).mp hw with hold₁ | ⟨hij, rfl⟩
    · rcases (hmem k s' hs' word).mp hw' with hold₂ | ⟨_, rfl⟩
      · exact h.disjoint j k s s' hs hs' word hold₁ hold₂
      · exact absurd hold₁ (hold j s hs)
    · rcases (hmem k s' hs' word).mp hw' with hold₂ | ⟨hik, _⟩
      · exact absurd hold₂ (hold k s' hs')
      · exact hij.symm.trans hik
  · intro w
    rw [hocc w, h.cover w]
    constructor
    · intro hor
      rcases hor with ⟨j, s, hs, hw⟩ | rfl
      · exact ⟨j, _, (hget j _).mpr ⟨s, hs, rfl⟩, (hmem j s hs w).mpr (Or.inl hw)⟩
      · exact ⟨i, _, (hget i _).mpr ⟨set, hi, rfl⟩, (hmem i set hi w).mpr (Or.inr ⟨rfl, rfl⟩)⟩
    · intro hex
      obtain ⟨j, t, hj, hw⟩ := hex
      obtain ⟨s, hs, rfl⟩ := (hget j t).mp hj
      exact ((hmem j s hs w).mp hw).imp (fun hw => ⟨j, s, hs, hw⟩) (·.2)
  · intro j t hj w hw v
    obtain ⟨s, hs, rfl⟩ := (hget j t).mp hj
    rw [hmem j s hs v, hjoin, hjb v]
    by_cases hij : i = j
    · subst hij
      obtain rfl : set = s := Option.some.inj (hi.symm.trans hs)
      rcases (hmem i set hs w).mp hw with hw | ⟨_, rfl⟩
      · have hwa : Tied calls w a := ((hset w).mp hw).symm
        rw [h.joined i set hi w hw v]
        simp [hwa, not_joined hb (h.occurs hi hw)]
      · have hwa : ¬ Tied calls w a := fun hj =>
          hold i set hi ((hset w).mpr hj.symm)
        rw [hset v, hjb v]
        simp [hwa, Tied.refl, or_comm]
    · have hw : w ∈ s := ((hmem j s hs w).mp hw).resolve_right fun hr => hij hr.1
      have hwa : ¬ Tied calls w a := fun hj' =>
        hij (h.disjoint i j set s hi hs w ((hset w).mpr hj'.symm) hw)
      rw [h.joined j s hs w hw v]
      simp [hij, hwa, not_joined hb (h.occurs hs hw)]

theorem setAddAll_of_subset {words : List Str} (h : words ⊆ set) : setAddAll set words = set := by
  induction words with
  | nil => rfl
  | cons word words ih =>
      have hcons : setAddAll set (word :: words) = setAddAll (setAdd set word) words := rfl
      rw [hcons, setAdd, if_pos (List.contains_iff_mem.mpr (h (by simp)))]
      exact ih fun w hw => h (by simp [hw])

/-- The condition on a call: it joins no two classes. -/
def Apart (calls : List (Str × Str)) (call : Str × Str) : Prop :=
  Occurs calls call.1 → Occurs calls call.2 → Tied calls call.1 call.2

theorem Classes.step (h : Classes map calls) (hc : Apart calls call) :
    Classes (addSynonyms map call) (calls ++ [call]) := by
  obtain ⟨a, b⟩ := call
  unfold addSynonyms
  split
  · rename_i ha hb
    exact h.push (h.not_occurs_of_indexOf ha) (h.not_occurs_of_indexOf hb)
  · rename_i i ha hb
    obtain ⟨set, hi, hmem⟩ := indexOf_eq_some ha
    apply h.grow hi hmem (h.not_occurs_of_indexOf hb)
    · intro w
      have ho : w = a → Occurs calls w := fun he => he ▸ h.occurs_of_indexOf ha
      rw [Lib.occurs_append_singleton, ← or_assoc, or_iff_left_of_imp ho]
    · exact fun x y => Tied.append_singleton
  · rename_i i ha hb
    obtain ⟨set, hi, hmem⟩ := indexOf_eq_some hb
    apply h.grow hi hmem (h.not_occurs_of_indexOf ha)
    · intro w
      have ho : w = b → Occurs calls w := fun he => he ▸ h.occurs_of_indexOf hb
      rw [Lib.occurs_append_singleton, or_comm (a := w = a), ← or_assoc, or_iff_left_of_imp ho]
    · intro x y
      rw [Tied.append_singleton, or_comm (a := _ ∧ _)]
  · rename_i i j ha hb
    obtain ⟨set, hi, hmem⟩ := indexOf_eq_some ha
    obtain ⟨set', hj, hmem'⟩ := indexOf_eq_some hb
    have hab : Tied calls a b := hc (h.occurs hi hmem) (h.occurs hj hmem')
    have hij : i = j := h.disjoint i j set set' hi hj b ((h.joined i set hi a hmem b).mpr hab) hmem'
    subst hij
    obtain rfl : set = set' := Option.some.inj (hi.symm.trans hj)
    have hsame : map.modify i (setAddAll · (map.getD i [])) = map := by
      apply List.ext_getElem?
      intro k
      rw [List.getElem?_modify]
      by_cases hik : i = k
      · subst hik
        simp [hi, List.getD, setAddAll_of_subset]
      · simp [hik]
    rw [hsame]
    refine ⟨h.disjoint, fun w => ?_, fun k s hk w hw v => ?_⟩
    · rw [Lib.occurs_append_singleton, ← h.cover w]
      constructor
      · intro hor
        rcases hor with ho | rfl | rfl
        · exact ho
        · exact h.occurs hi hmem
        · exact h.occurs hi hmem'
      · exact Or.inl
    · rw [Tied.append_singleton, h.joined k s hk w hw v]
      constructor
      · exact Or.inl
      · intro hor
        rcases hor with hj | ⟨h₁, h₂⟩ | ⟨h₁, h₂⟩
        · exact hj
        · exact (h₁.trans hab).trans h₂
        · exact (h₁.trans hab.symm).trans h₂

/-- A call that joins two classes leaves two sets that overlap. -/
theorem Classes.overlap (h : Classes map calls) (hc : ¬ Apart calls call) :
    ¬ Disjoint (addSynonyms map call) := by
  obtain ⟨a, b⟩ := call
  rw [Apart, Classical.not_imp, Classical.not_imp] at hc
  obtain ⟨ha, hb, hab⟩ := hc
  unfold addSynonyms
  split
  · rename_i hia hib
    exact absurd ha (h.not_occurs_of_indexOf hia)
  · rename_i hia hib
    exact absurd hb (h.not_occurs_of_indexOf hib)
  · rename_i hia hib
    exact absurd ha (h.not_occurs_of_indexOf hia)
  · rename_i i j hia hib
    obtain ⟨set, hi, hmem⟩ := indexOf_eq_some hia
    obtain ⟨set', hj, hmem'⟩ := indexOf_eq_some hib
    have hij : i ≠ j := by
      intro hij
      subst hij
      obtain rfl : set = set' := Option.some.inj (hi.symm.trans hj)
      exact hab ((h.joined i set hi a hmem b).mp hmem')
    intro hd
    apply hij
    apply hd i j (setAddAll set (map.getD j [])) set' _ _ b _ hmem'
    · rw [List.getElem?_modify, hi]; simp
    · rw [List.getElem?_modify, hj]; simp [hij]
    · exact mem_setAddAll.mpr (Or.inr (by simp [List.getD, hj, hmem']))

/-! ## Sequences of calls -/

/-- No call joins two classes of the calls before it. -/
def NeverJoins (calls : List (Str × Str)) : Prop :=
  ∀ before call after, calls = before ++ call :: after → Apart before call

theorem neverJoins_append_singleton :
    NeverJoins (calls ++ [call]) ↔ NeverJoins calls ∧ Apart calls call := by
  constructor
  · intro h
    refine ⟨fun before c after heq => ?_, h calls call [] rfl⟩
    exact h before c (after ++ [call]) (by rw [heq]; simp)
  · intro h before c after heq
    rcases List.eq_nil_or_concat after with rfl | ⟨after', last, rfl⟩
    · obtain ⟨rfl, hlast⟩ := List.append_inj' heq rfl
      cases hlast
      exact h.2
    · have heq' : calls ++ [call] = (before ++ c :: after') ++ [last] := by rw [heq]; simp
      exact h.1 before c after' (List.append_inj' heq' rfl).1

theorem run_classes (calls : List (Str × Str)) :
    (NeverJoins calls → Classes (run addSynonyms [] calls) calls)
      ∧ (Disjoint (run addSynonyms [] calls) → NeverJoins calls) := by
  induction calls using List.reverseRecOn with
  | nil => exact ⟨fun _ => Classes.empty, fun _ before call after h => (by simp at h)⟩
  | append_singleton calls call ih =>
      rw [Lib.run_append, neverJoins_append_singleton]
      refine ⟨fun h => (ih.1 h.1).step h.2, fun hd => ?_⟩
      have hnever := ih.2 (disjoint_of_grows addSynonyms_grows hd)
      by_cases hc : Apart calls call
      · exact ⟨hnever, hc⟩
      · exact absurd hd ((ih.1 hnever).overlap hc)

/-- What the index promises: the sets are disjoint, a word that occurred gets its class and any
other word nothing. -/
structure SynonymClasses (map : SynonymIndex) (calls : List (Str × Str)) : Prop where
  disjoint : Disjoint map
  class_ : ∀ w, Occurs calls w → ∀ v, v ∈ getSynonyms map w ↔ Tied calls w v
  unknown : ∀ w, ¬ Occurs calls w → getSynonyms map w = []

theorem Classes.synonymClasses (h : Classes map calls) : SynonymClasses map calls where
  disjoint := h.disjoint
  class_ w hw v := by
    obtain ⟨i, set, hi, hmem⟩ := (h.cover w).mp hw
    obtain ⟨found, hfind⟩ : ∃ found, map.find? (·.contains w) = some found :=
      Option.isSome_iff_exists.mp (List.find?_isSome.mpr
        ⟨set, List.mem_of_getElem? hi, by simpa using hmem⟩)
    obtain ⟨j, hj⟩ := List.mem_iff_getElem?.mp (List.mem_of_find?_eq_some hfind)
    have hw' : w ∈ found := by simpa using List.find?_some hfind
    rw [getSynonyms, hfind]
    exact h.joined j found hj w hw' v
  unknown w hw := by
    rw [getSynonyms, List.find?_eq_none.mpr]
    · rfl
    · intro set hset hmem
      obtain ⟨i, hi⟩ := List.mem_iff_getElem?.mp hset
      exact hw ((h.cover w).mpr ⟨i, set, hi, by simpa using hmem⟩)

/-- The sets are the classes exactly where no call joins two of them. -/
theorem synonym_classes (calls : List (Str × Str)) :
    SynonymClasses (run addSynonyms [] calls) calls ↔ NeverJoins calls :=
  ⟨fun h => (run_classes calls).2 h.disjoint, fun h => ((run_classes calls).1 h).synonymClasses⟩

/-- The class of `a` and `b` is joined with that of `c` and `d`, and stays as it was. -/
theorem synonym_classes_stale :
    ¬ SynonymClasses (run addSynonyms [] [(['a'], ['b']), (['c'], ['d']), (['c'], ['a'])])
      [(['a'], ['b']), (['c'], ['d']), (['c'], ['a'])] := by
  intro h
  have hjoined : ['c'] ∈ getSynonyms (run addSynonyms []
      [(['a'], ['b']), (['c'], ['d']), (['c'], ['a'])]) ['a'] := by
    apply (h.class_ ['a'] ⟨(['a'], ['b']), by decide, Or.inl rfl⟩ ['c']).mpr
    exact (Tied.of_mem (x := ['c']) (y := ['a']) (by decide)).symm
  exact absurd hjoined (by decide)

end Freehal.Index
