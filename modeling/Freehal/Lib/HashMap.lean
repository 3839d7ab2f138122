import Mathlib.Data.List.Perm.Basic

/-!
# Hash maps and multimaps with an unspecified iteration order

A map is the list of its entries in the order in which the keys were first put. The order in
which an iteration visits them is a parameter, any rearrangement of that list.
-/

namespace Freehal.Lib

/-- An iteration order of the hash collections. -/
structure HashOrder where
  enum : {α : Type} → List α → List α
  perm : ∀ {α : Type} (l : List α), (enum l).Perm l

theorem HashOrder.mem_enum (ord : HashOrder) {α : Type} {l : List α} {x : α} :
    x ∈ ord.enum l ↔ x ∈ l := (ord.perm l).mem_iff

/-- Iterate in the order of insertion. -/
def HashOrder.insertion : HashOrder := ⟨fun l => l, fun l => List.Perm.refl l⟩

abbrev HashMap (κ β : Type) := List (κ × β)

section

variable {κ β : Type} [DecidableEq κ]

def HashMap.get (m : HashMap κ β) (k : κ) : Option β := (m.find? (·.1 = k)).map (·.2)

/-- A key keeps its place when its value is replaced. -/
def HashMap.put : HashMap κ β → κ → β → HashMap κ β
  | [], k, v => [(k, v)]
  | e :: m, k, v => if e.1 = k then (k, v) :: m else e :: HashMap.put m k v

def HashMap.remove (m : HashMap κ β) (k : κ) : HashMap κ β := m.filter (fun e => ¬ e.1 = k)

def HashMap.putAll (m n : HashMap κ β) : HashMap κ β := n.foldl (fun m e => m.put e.1 e.2) m

theorem HashMap.mem_put {m : HashMap κ β} {k : κ} {v : β} {e : κ × β}
    (h : e ∈ m.put k v) : e = (k, v) ∨ e ∈ m := by
  induction m with
  | nil => exact Or.inl (by simpa [HashMap.put] using h)
  | cons d m ih =>
      simp only [HashMap.put] at h
      split at h
      · rcases List.mem_cons.mp h with rfl | h
        · exact Or.inl rfl
        · exact Or.inr (List.mem_cons_of_mem _ h)
      · rcases List.mem_cons.mp h with rfl | h
        · exact Or.inr List.mem_cons_self
        · exact (ih h).imp_right (List.mem_cons_of_mem _)

/-- No key has two entries. -/
def HashMap.Unique (m : HashMap κ β) : Prop := m.Pairwise (·.1 ≠ ·.1)

omit [DecidableEq κ] in
theorem HashMap.Unique.nil : HashMap.Unique ([] : HashMap κ β) := List.Pairwise.nil

theorem HashMap.Unique.put {m : HashMap κ β} (h : m.Unique) (k : κ) (v : β) : (m.put k v).Unique := by
  induction m with
  | nil => exact List.pairwise_singleton _ _
  | cons d m ih =>
      obtain ⟨hd, hm⟩ := List.pairwise_cons.mp h
      simp only [HashMap.put]
      split
      · rename_i hk
        exact List.pairwise_cons.mpr ⟨fun e he => hk ▸ hd e he, hm⟩
      · rename_i hk
        refine List.pairwise_cons.mpr ⟨fun e he => ?_, ih hm⟩
        rcases HashMap.mem_put he with rfl | he
        · exact hk
        · exact hd e he

theorem HashMap.mem_put_self (m : HashMap κ β) (k : κ) (v : β) : (k, v) ∈ m.put k v := by
  induction m with
  | nil => exact List.mem_singleton_self _
  | cons d m ih =>
      simp only [HashMap.put]
      split
      · exact List.mem_cons_self
      · exact List.mem_cons_of_mem _ ih

theorem HashMap.mem_put_of_ne {m : HashMap κ β} {k : κ} {v : β} {e : κ × β} (h : e ∈ m)
    (hk : e.1 ≠ k) : e ∈ m.put k v := by
  induction m with
  | nil => cases h
  | cons d m ih =>
      simp only [HashMap.put]
      split
      · rename_i hd
        rcases List.mem_cons.mp h with rfl | h
        · exact absurd hd hk
        · exact List.mem_cons_of_mem _ h
      · rcases List.mem_cons.mp h with rfl | h
        · exact List.mem_cons_self
        · exact List.mem_cons_of_mem _ (ih h)

theorem HashMap.Unique.get {m : HashMap κ β} (h : m.Unique) {k : κ} {v : β} (hv : (k, v) ∈ m) :
    m.get k = some v := by
  induction m with
  | nil => cases hv
  | cons d m ih =>
      obtain ⟨hd, hm⟩ := List.pairwise_cons.mp h
      rcases List.mem_cons.mp hv with rfl | hv
      · simp [HashMap.get]
      · have hne : ¬ d.1 = k := hd _ hv
        simpa [HashMap.get, hne] using ih hm hv

theorem HashMap.get_put (m : HashMap κ β) (k k' : κ) (v : β) :
    (m.put k v).get k' = if k' = k then some v else m.get k' := by
  induction m with
  | nil =>
      by_cases h : k' = k
      · simp [HashMap.put, HashMap.get, h]
      · have h' : ¬ k = k' := fun he => h he.symm
        simp [HashMap.put, HashMap.get, h, h']
  | cons d m ih =>
      simp only [HashMap.get] at ih
      simp only [HashMap.put]
      split
      · rename_i hd
        by_cases h : k' = k
        · simp [HashMap.get, h]
        · have h' : ¬ k = k' := fun he => h he.symm
          simp [HashMap.get, h, h', hd]
      · rename_i hd
        by_cases h : d.1 = k'
        · have h' : ¬ k' = k := fun he => hd (h.trans he)
          simp [HashMap.get, h, h']
        · simp only [HashMap.get, List.find?_cons, h, decide_false]
          exact ih

theorem HashMap.get_remove (m : HashMap κ β) (k k' : κ) :
    (m.remove k).get k' = if k' = k then none else m.get k' := by
  simp only [HashMap.get, HashMap.remove, List.find?_filter]
  split
  · rename_i hk
    rw [List.find?_eq_none.mpr (by simp [hk]), Option.map_none]
  · rename_i hk
    refine congrArg (Option.map (·.2)) (congrArg (List.find? · m) (funext fun e => ?_))
    by_cases he : e.1 = k' <;> simp [he, hk]

theorem HashMap.Unique.remove {m : HashMap κ β} (h : m.Unique) (k : κ) : (m.remove k).Unique :=
  List.Pairwise.filter _ h

theorem HashMap.mem_putAll {m n : HashMap κ β} {e : κ × β} (h : e ∈ m.putAll n) :
    e ∈ m ∨ e ∈ n := by
  induction n generalizing m with
  | nil => exact Or.inl h
  | cons d n ih =>
      rcases ih h with h | h
      · rcases HashMap.mem_put h with rfl | h
        · exact Or.inr List.mem_cons_self
        · exact Or.inl h
      · exact Or.inr (List.mem_cons_of_mem _ h)

theorem HashMap.Unique.putAll {m : HashMap κ β} (h : m.Unique) (n : HashMap κ β) :
    (m.putAll n).Unique := by
  induction n generalizing m with
  | nil => exact h
  | cons d n ih => exact ih (h.put d.1 d.2)

theorem HashMap.mem_of_get {m : HashMap κ β} {k : κ} {v : β} (h : m.get k = some v) :
    (k, v) ∈ m := by
  simp only [HashMap.get, Option.map_eq_some_iff] at h
  obtain ⟨⟨k', v'⟩, hf, rfl⟩ := h
  have hk : k' = k := by simpa using List.find?_some hf
  exact hk ▸ List.mem_of_find?_eq_some hf

end

/-- The values of a key form a set: a value that is there already is not added again. -/
abbrev MultiHashMap (κ β : Type) := HashMap κ (List β)

section

variable {κ β : Type} [DecidableEq κ] [DecidableEq β]

def MultiHashMap.get (m : MultiHashMap κ β) (k : κ) : List β := (HashMap.get m k).getD []

def MultiHashMap.count (m : MultiHashMap κ β) (k : κ) : Nat := (m.get k).length

def MultiHashMap.put (m : MultiHashMap κ β) (k : κ) (v : β) : MultiHashMap κ β :=
  HashMap.put m k (if v ∈ m.get k then m.get k else m.get k ++ [v])

/-- The pairs of a key and one of its values, key by key. -/
def MultiHashMap.entrySet (ord : HashOrder) (m : MultiHashMap κ β) : List (κ × β) :=
  (ord.enum m).flatMap fun e => (ord.enum e.2).map fun v => (e.1, v)

omit [DecidableEq β] in
theorem MultiHashMap.mem_get {m : MultiHashMap κ β} {k : κ} {v : β} (h : v ∈ m.get k) :
    ∃ vs, (k, vs) ∈ m ∧ v ∈ vs := by
  unfold MultiHashMap.get at h
  cases hm : HashMap.get m k with
  | none => simp [hm] at h
  | some vs => exact ⟨vs, HashMap.mem_of_get hm, by simpa [hm] using h⟩

/-- Every value in `m` satisfies `p`. -/
def MultiHashMap.All (m : MultiHashMap κ β) (p : κ → β → Prop) : Prop :=
  ∀ e ∈ m, ∀ v ∈ e.2, p e.1 v

theorem MultiHashMap.All.put {m : MultiHashMap κ β} {p : κ → β → Prop} (hm : m.All p) {k : κ}
    {v : β} (hv : p k v) : (m.put k v).All p := by
  intro e he w hw
  rcases HashMap.mem_put he with rfl | he
  · have hget : ∀ w ∈ m.get k, p k w := by
      intro w hw
      obtain ⟨vs, hvs, hw⟩ := MultiHashMap.mem_get hw
      exact hm _ hvs _ hw
    dsimp only at hw
    split at hw
    · exact hget _ hw
    · rcases List.mem_append.mp hw with hw | hw
      · exact hget _ hw
      · rw [List.mem_singleton.mp hw]; exact hv
  · exact hm _ he _ hw

omit [DecidableEq κ] [DecidableEq β] in
theorem MultiHashMap.All.of_mem_entrySet {m : MultiHashMap κ β} {p : κ → β → Prop} (hm : m.All p)
    {ord : HashOrder} {e : κ × β} (he : e ∈ m.entrySet ord) : p e.1 e.2 := by
  simp only [MultiHashMap.entrySet, List.mem_flatMap, List.mem_map, ord.mem_enum] at he
  obtain ⟨d, hd, v, hv, rfl⟩ := he
  exact hm d hd v hv

omit [DecidableEq β] in
theorem MultiHashMap.All.of_mem_get {m : MultiHashMap κ β} {p : κ → β → Prop} (hm : m.All p)
    {k : κ} {v : β} (hv : v ∈ m.get k) : p k v := by
  obtain ⟨vs, hvs, hv⟩ := MultiHashMap.mem_get hv
  exact hm _ hvs _ hv

/-- One of the pairs of the map. -/
def MultiHashMap.Holds (m : MultiHashMap κ β) (k : κ) (v : β) : Prop := ∃ vs, (k, vs) ∈ m ∧ v ∈ vs

omit [DecidableEq κ] [DecidableEq β] in
theorem MultiHashMap.mem_entrySet {m : MultiHashMap κ β} {ord : HashOrder} {k : κ} {v : β} :
    (k, v) ∈ m.entrySet ord ↔ m.Holds k v := by
  simp only [MultiHashMap.entrySet, List.mem_flatMap, List.mem_map, ord.mem_enum, Prod.mk.injEq,
    MultiHashMap.Holds]
  refine ⟨?_, ?_⟩
  · intro h
    obtain ⟨d, hd, v', hv, rfl, rfl⟩ := h
    exact ⟨d.2, hd, hv⟩
  · intro h
    obtain ⟨vs, hvs, hv⟩ := h
    exact ⟨(k, vs), hvs, v, hv, rfl, rfl⟩

omit [DecidableEq κ] [DecidableEq β] in
theorem MultiHashMap.holds_cons {m : MultiHashMap κ β} {d : κ × List β} {k : κ} {v : β} :
    MultiHashMap.Holds (d :: m) k v ↔ (d.1 = k ∧ v ∈ d.2) ∨ m.Holds k v := by
  obtain ⟨k', vs⟩ := d
  simp only [MultiHashMap.Holds, List.mem_cons, Prod.mk.injEq]
  refine ⟨?_, ?_⟩
  · intro h
    obtain ⟨vs', ⟨rfl, rfl⟩ | h, hv⟩ := h
    · exact Or.inl ⟨rfl, hv⟩
    · exact Or.inr ⟨vs', h, hv⟩
  · intro h
    obtain ⟨rfl, hv⟩ | ⟨vs', h, hv⟩ := h
    · exact ⟨vs, Or.inl ⟨rfl, rfl⟩, hv⟩
    · exact ⟨vs', Or.inr h, hv⟩

theorem MultiHashMap.put_cons_self (m : MultiHashMap κ β) (k : κ) (vs : List β) (v : β) :
    MultiHashMap.put ((k, vs) :: m) k v = (k, if v ∈ vs then vs else vs ++ [v]) :: m := by
  simp [MultiHashMap.put, MultiHashMap.get, HashMap.get, HashMap.put]

theorem MultiHashMap.put_cons_ne (m : MultiHashMap κ β) {k d : κ} (vs : List β) (v : β)
    (h : ¬ d = k) : MultiHashMap.put ((d, vs) :: m) k v = (d, vs) :: MultiHashMap.put m k v := by
  have hget : MultiHashMap.get ((d, vs) :: m) k = MultiHashMap.get m k := by
    simp [MultiHashMap.get, HashMap.get, h]
  rw [MultiHashMap.put, hget]
  exact if_neg h

theorem MultiHashMap.holds_put {m : MultiHashMap κ β} {k k' : κ} {v v' : β} :
    (m.put k v).Holds k' v' ↔ m.Holds k' v' ∨ (k' = k ∧ v' = v) := by
  induction m with
  | nil =>
      simp [MultiHashMap.put, MultiHashMap.get, HashMap.get, HashMap.put, MultiHashMap.Holds]
  | cons d m ih =>
      obtain ⟨d, vs⟩ := d
      by_cases h : d = k
      · subst h
        have hmem : v' ∈ (if v ∈ vs then vs else vs ++ [v]) ↔ v' ∈ vs ∨ v' = v := by
          split
          · refine ⟨Or.inl, ?_⟩
            rintro (h | rfl) <;> assumption
          · simp
        rw [put_cons_self, holds_cons, holds_cons, hmem, eq_comm (a := k')]
        tauto
      · rw [put_cons_ne m vs v h, holds_cons, holds_cons, ih]
        tauto

theorem MultiHashMap.holds_foldl_put {m : MultiHashMap κ β} {k k' : κ} {vs : List β} {v' : β} :
    MultiHashMap.Holds (vs.foldl (fun m v => MultiHashMap.put m k v) m) k' v' ↔
      m.Holds k' v' ∨ (k' = k ∧ v' ∈ vs) := by
  induction vs generalizing m with
  | nil => simp
  | cons v vs ih =>
      rw [List.foldl_cons, ih, holds_put, List.mem_cons]
      tauto

omit [DecidableEq β] in
theorem MultiHashMap.get_put_key (m : MultiHashMap κ β) (k k' : κ) (vs : List β) :
    MultiHashMap.get (HashMap.put m k vs) k' = if k' = k then vs else m.get k' := by
  unfold MultiHashMap.get
  rw [HashMap.get_put]
  split <;> rfl

omit [DecidableEq β] in
theorem MultiHashMap.mem_get_iff {m : MultiHashMap κ β} (h : HashMap.Unique m) {k : κ} {v : β} :
    v ∈ m.get k ↔ m.Holds k v := by
  refine ⟨MultiHashMap.mem_get, ?_⟩
  rintro ⟨vs, hvs, hv⟩
  rwa [MultiHashMap.get, h.get hvs]

theorem MultiHashMap.put_unique {m : MultiHashMap κ β} (h : HashMap.Unique m) (k : κ) (v : β) :
    HashMap.Unique (MultiHashMap.put m k v) := HashMap.Unique.put h k _

end

end Freehal.Lib
