import Freehal.Lib.HashMap
import Freehal.Lib.Run
import Mathlib.Data.List.Nodup

/-!
# The views of a `MultiHashMap`

A key keeps its set of values until the key itself is removed, also when the set has become empty.
The views read the keys as well as the sets, so they do not all see such a key.
-/

namespace Freehal.Util.MultiHashMap

open Freehal.Lib

variable {κ β : Type} [DecidableEq κ] [DecidableEq β]

/-! ## Changes -/

def addValue (values : List β) (item : β) : List β :=
  if item ∈ values then values else values ++ [item]

/-- `put` of a collection, which may be empty. -/
def putAll (m : MultiHashMap κ β) (key : κ) (items : List β) : MultiHashMap κ β :=
  HashMap.put m key (items.foldl addValue (m.get key))

def remove (m : MultiHashMap κ β) (key : κ) (item : β) : MultiHashMap κ β × Bool :=
  match HashMap.get m key with
  | none => (m, false)
  | some values => (HashMap.put m key (values.filter (¬ · = item)), values.contains item)

def removeKey (m : MultiHashMap κ β) (key : κ) : MultiHashMap κ β := HashMap.remove m key

/-! ## Views -/

omit [DecidableEq κ] [DecidableEq β] in
def keySet (ord : HashOrder) (m : MultiHashMap κ β) : List κ := (ord.enum m).map (·.1)

omit [DecidableEq κ] [DecidableEq β] in
def size (m : MultiHashMap κ β) : Nat := m.length

def containsKey (m : MultiHashMap κ β) (key : κ) : Bool := m.any (·.1 = key)

omit [DecidableEq κ] [DecidableEq β] in
/-- The `size` of the entry set. -/
def entrySetSize (ord : HashOrder) (m : MultiHashMap κ β) : Nat :=
  (ord.enum m).foldl (fun size e => size + e.2.length) 0

omit [DecidableEq κ] [DecidableEq β] in
def isEmpty (m : MultiHashMap κ β) : Bool := m.length = 0

/-- What `contains` of the entry set may be asked for. Keys are strings and numbers, and no entry is
equal to one. -/
inductive Object (κ β : Type) where
  | key (k : κ)
  | entry (k : κ) (v : β)

omit [DecidableEq β] in
def contains (m : MultiHashMap κ β) : Object κ β → Bool
  | .key k => containsKey m k
  | .entry _ _ => false

/-! ## The iterator of the entry set -/

omit [DecidableEq κ] [DecidableEq β] in
/-- The inner loop of `next`: the pair at position `i`, or the position behind the values. -/
def nextValue (key : κ) (i : Nat) : Nat → List β → Option (κ × β) × Nat
  | k, [] => (none, k)
  | k, v :: values => if k = i then (some (key, v), k) else nextValue key i (k + 1) values

omit [DecidableEq κ] [DecidableEq β] in
def nextEntry (ord : HashOrder) (i : Nat) : Nat → List (κ × List β) → Option (κ × β)
  | _, [] => none
  | k, e :: entries =>
      match nextValue e.1 i k (ord.enum e.2) with
      | (some pair, _) => some pair
      | (none, k) => nextEntry ord i k entries

omit [DecidableEq κ] [DecidableEq β] in
def hasNext (ord : HashOrder) (m : MultiHashMap κ β) (i : Nat) : Bool := i < entrySetSize ord m

omit [DecidableEq κ] [DecidableEq β] in
/-- The pair, or null, and the position of the iterator behind it. -/
def next (ord : HashOrder) (m : MultiHashMap κ β) (i : Nat) : Option (κ × β) × Nat :=
  match nextEntry ord i 0 (ord.enum m) with
  | some pair => (some pair, i + 1)
  | none => (none, i)

omit [DecidableEq κ] [DecidableEq β] in
/-- What an iteration visits: `next` as long as there is one. -/
def iterate (ord : HashOrder) (m : MultiHashMap κ β) : Nat → Nat → Option (List (Option (κ × β)))
  | 0, _ => none
  | fuel + 1, i =>
      if hasNext ord m i then
        (iterate ord m fuel (next ord m i).2).map ((next ord m i).1 :: ·)
      else some []

/-! ## Runs and the set of pairs -/

inductive Op (κ β : Type) where
  | put (key : κ) (item : β)
  | putAll (key : κ) (items : List β)
  | remove (key : κ) (item : β)
  | removeKey (key : κ)
  | clear

def step (m : MultiHashMap κ β) : Op κ β → MultiHashMap κ β
  | .put key item => m.put key item
  | .putAll key items => putAll m key items
  | .remove key item => (remove m key item).1
  | .removeKey key => removeKey m key
  | .clear => []

omit [DecidableEq κ] [DecidableEq β] in
/-- What an operation does to a set of pairs. -/
def effect (held : κ → β → Prop) : Op κ β → κ → β → Prop
  | .put key item => fun k v => held k v ∨ (k = key ∧ v = item)
  | .putAll key items => fun k v => held k v ∨ (k = key ∧ v ∈ items)
  | .remove key item => fun k v => held k v ∧ ¬ (k = key ∧ v = item)
  | .removeKey key => fun k v => held k v ∧ ¬ k = key
  | .clear => fun _ _ => False

omit [DecidableEq κ] [DecidableEq β] in
/-- The pairs put and not since removed. -/
def held (ops : List (Op κ β)) : κ → β → Prop := run effect (fun _ _ => False) ops

omit [DecidableEq κ] [DecidableEq β] in
/-- What an operation does to the keys: only the removal of a key as a whole takes it away. -/
def keyEffect (left : κ → Prop) : Op κ β → κ → Prop
  | .put key _ => fun k => left k ∨ k = key
  | .putAll key _ => fun k => left k ∨ k = key
  | .remove _ _ => left
  | .removeKey key => fun k => left k ∧ ¬ k = key
  | .clear => fun _ => False

omit [DecidableEq κ] [DecidableEq β] in
/-- The keys put and not since removed as a whole. -/
def left (ops : List (Op κ β)) : κ → Prop := run keyEffect (fun _ => False) ops

/-- The map holds these pairs, and these keys. -/
structure Refines (m : MultiHashMap κ β) (held : κ → β → Prop) (left : κ → Prop) : Prop where
  unique : HashMap.Unique m
  nodup : ∀ k, (m.get k).Nodup
  held : ∀ k v, v ∈ m.get k ↔ held k v
  left : ∀ k, (HashMap.get m k).isSome ↔ left k

omit [DecidableEq κ] in
theorem mem_addValue {values : List β} {item v : β} :
    v ∈ addValue values item ↔ v ∈ values ∨ v = item := by
  unfold addValue
  split
  · refine ⟨Or.inl, ?_⟩
    rintro (h | rfl) <;> assumption
  · simp

omit [DecidableEq κ] in
theorem addValue_nodup {values : List β} (h : values.Nodup) (item : β) :
    (addValue values item).Nodup := by
  unfold addValue
  split
  · exact h
  · rename_i hitem
    exact List.nodup_append.mpr ⟨h, List.pairwise_singleton _ _, fun v hv w hw he =>
      hitem (List.mem_singleton.mp hw ▸ he ▸ hv)⟩

omit [DecidableEq κ] in
theorem mem_foldl_addValue {items values : List β} {v : β} :
    v ∈ items.foldl addValue values ↔ v ∈ values ∨ v ∈ items := by
  induction items generalizing values with
  | nil => simp
  | cons item items ih => rw [List.foldl_cons, ih, mem_addValue, List.mem_cons, or_assoc]

omit [DecidableEq κ] in
theorem foldl_addValue_nodup {items values : List β} (h : values.Nodup) :
    (items.foldl addValue values).Nodup := by
  induction items generalizing values with
  | nil => exact h
  | cons item items ih => exact ih (addValue_nodup h item)

omit [DecidableEq β] in
/-- Only the values of the key change, and the key is there afterwards. -/
theorem Refines.put_key {m : MultiHashMap κ β} {held held' : κ → β → Prop} {left left' : κ → Prop}
    (h : Refines m held left) {key : κ} {values : List β} (hnodup : values.Nodup)
    (hheld : ∀ k v, held' k v ↔ if k = key then v ∈ values else held k v)
    (hleft : ∀ k, left' k ↔ left k ∨ k = key) : Refines (HashMap.put m key values) held' left' where
  unique := h.unique.put key values
  nodup k := by
    rw [MultiHashMap.get_put_key]
    split
    · exact hnodup
    · exact h.nodup k
  held k v := by
    rw [MultiHashMap.get_put_key, hheld]
    split
    · rfl
    · exact h.held k v
  left k := by
    rw [HashMap.get_put, hleft]
    by_cases hk : k = key
    · simp [hk]
    · simp [hk, h.left k]

theorem Refines.putAll {m : MultiHashMap κ β} {held : κ → β → Prop} {left : κ → Prop}
    (h : Refines m held left) (key : κ) (items : List β) :
    Refines (MultiHashMap.putAll m key items) (fun k v => held k v ∨ (k = key ∧ v ∈ items))
      (fun k => left k ∨ k = key) := by
  refine h.put_key (foldl_addValue_nodup (h.nodup key)) (fun k v => ?_) fun k => Iff.rfl
  rw [mem_foldl_addValue]
  split
  · rename_i hk
    subst hk
    rw [h.held]
    simp
  · rename_i hk
    simp [hk]

theorem Refines.remove {m : MultiHashMap κ β} {held : κ → β → Prop} {left : κ → Prop}
    (h : Refines m held left) (key : κ) (item : β) :
    Refines (MultiHashMap.remove m key item).1 (fun k v => held k v ∧ ¬ (k = key ∧ v = item))
      left := by
  unfold MultiHashMap.remove
  cases hm : HashMap.get m key with
  | none =>
      have hno : ∀ v, ¬ held key v := by
        intro v hv
        have hget := (h.held key v).mpr hv
        simp [Lib.MultiHashMap.get, hm] at hget
      refine ⟨h.unique, h.nodup, fun k v => ?_, h.left⟩
      rw [h.held]
      refine ⟨fun hv => ⟨hv, ?_⟩, And.left⟩
      rintro ⟨rfl, -⟩
      exact hno v hv
  | some values =>
      have hget : Lib.MultiHashMap.get m key = values := by rw [Lib.MultiHashMap.get, hm]; rfl
      refine h.put_key (hget ▸ (h.nodup key).filter _) (fun k v => ?_) fun k => ?_
      · split
        · rename_i hk
          subst hk
          rw [← h.held, hget]
          simp
        · rename_i hk
          simp [hk]
      · refine ⟨Or.inl, ?_⟩
        rintro (hk | rfl)
        · exact hk
        · exact (h.left k).mp (by rw [hm]; rfl)

omit [DecidableEq β] in
theorem Refines.removeKey {m : MultiHashMap κ β} {held : κ → β → Prop} {left : κ → Prop}
    (h : Refines m held left) (key : κ) :
    Refines (MultiHashMap.removeKey m key) (fun k v => held k v ∧ ¬ k = key)
      (fun k => left k ∧ ¬ k = key) := by
  have hget : ∀ k, Lib.MultiHashMap.get (HashMap.remove m key) k =
      if k = key then [] else Lib.MultiHashMap.get m k := by
    intro k
    unfold Lib.MultiHashMap.get
    rw [HashMap.get_remove]
    split <;> rfl
  refine ⟨h.unique.remove key, fun k => ?_, fun k v => ?_, fun k => ?_⟩
  · rw [MultiHashMap.removeKey, hget]
    split
    · exact List.nodup_nil
    · exact h.nodup k
  · rw [MultiHashMap.removeKey, hget, ← h.held]
    by_cases hk : k = key <;> simp [hk]
  · rw [MultiHashMap.removeKey, HashMap.get_remove, ← h.left]
    by_cases hk : k = key <;> simp [hk]

omit [DecidableEq β] in
theorem refines_nil :
    Refines ([] : MultiHashMap κ β) (fun _ _ => False) (fun _ => False) where
  unique := HashMap.Unique.nil
  nodup _ := List.nodup_nil
  held _ _ := by simp [Lib.MultiHashMap.get, HashMap.get]
  left _ := by simp [HashMap.get]

/-- One operation. -/
theorem Refines.step {m : MultiHashMap κ β} {held : κ → β → Prop} {left : κ → Prop}
    (h : Refines m held left) (op : Op κ β) :
    Refines (MultiHashMap.step m op) (effect held op) (keyEffect left op) := by
  cases op with
  | put key item =>
      have hput := h.putAll key [item]
      simp only [List.mem_singleton] at hput
      exact hput
  | putAll key items => exact h.putAll key items
  | remove key item => exact h.remove key item
  | removeKey key => exact h.removeKey key
  | clear => exact refines_nil

/-- Every run. -/
theorem Refines.run {m : MultiHashMap κ β} {held : κ → β → Prop} {left : κ → Prop}
    (h : Refines m held left) (ops : List (Op κ β)) :
    Refines (run MultiHashMap.step m ops) (run effect held ops) (run keyEffect left ops) := by
  induction ops generalizing m held left with
  | nil => exact h
  | cons op ops ih => exact ih (h.step op)

theorem Refines.remove_snd {m : MultiHashMap κ β} {held : κ → β → Prop} {left : κ → Prop}
    (h : Refines m held left) (key : κ) (item : β) :
    (MultiHashMap.remove m key item).2 = true ↔ held key item := by
  rw [← h.held, Lib.MultiHashMap.get]
  unfold MultiHashMap.remove
  cases HashMap.get m key <;> simp

/-! ## The iteration -/

section

omit [DecidableEq κ] [DecidableEq β]

variable {ord : HashOrder} {m : MultiHashMap κ β}

theorem nextValue_eq (key : κ) {i k : Nat} (h : k ≤ i) (values : List β) :
    nextValue key i k values =
      if i - k < values.length then (values[i - k]?.map (key, ·), i)
      else (none, k + values.length) := by
  induction values generalizing k with
  | nil => simp [nextValue]
  | cons v values ih =>
      rw [nextValue]
      by_cases hki : k = i
      · subst hki
        simp
      · obtain ⟨j, hj⟩ : ∃ j, i - k = j + 1 := ⟨i - k - 1, by omega⟩
        have hsub : i - (k + 1) = j := by omega
        rw [if_neg hki, ih (by omega), hsub, hj, List.getElem?_cons_succ, List.length_cons]
        by_cases hlt : j < values.length
        · rw [if_pos hlt, if_pos (by omega)]
        · rw [if_neg hlt, if_neg (by omega), Nat.add_right_comm, Nat.add_assoc]

/-- The two loops find the pair at position `i`. -/
theorem nextEntry_eq {i k : Nat} (h : k ≤ i) (entries : List (κ × List β)) :
    nextEntry ord i k entries =
      (entries.flatMap fun e => (ord.enum e.2).map fun v => (e.1, v))[i - k]? := by
  induction entries generalizing k with
  | nil => simp [nextEntry]
  | cons e entries ih =>
      rw [nextEntry, nextValue_eq e.1 h, List.flatMap_cons]
      by_cases hlt : i - k < (ord.enum e.2).length
      · rw [if_pos hlt, List.getElem?_append_left (by simpa using hlt), List.getElem?_map,
          List.getElem?_eq_getElem hlt]
        rfl
      · have hle : k + (ord.enum e.2).length ≤ i := by omega
        rw [if_neg hlt, List.getElem?_append_right (by simpa using hlt), List.length_map,
          Nat.sub_sub]
        exact ih hle

theorem entrySetSize_eq : entrySetSize ord m = (m.entrySet ord).length := by
  have hfold : ∀ (entries : List (κ × List β)) (n : Nat),
      entries.foldl (fun size e => size + e.2.length) n =
        n + (entries.flatMap fun e => (ord.enum e.2).map fun v => (e.1, v)).length := by
    intro entries
    induction entries with
    | nil => exact fun n => rfl
    | cons e entries ih =>
        intro n
        rw [List.foldl_cons, ih, List.flatMap_cons, List.length_append, List.length_map,
          (ord.perm e.2).length_eq, Nat.add_assoc]
  rw [entrySetSize, hfold, Nat.zero_add, MultiHashMap.entrySet]

/-- One step of the iterator. -/
theorem next_of_lt {i : Nat} (h : i < (m.entrySet ord).length) :
    next ord m i = (some (m.entrySet ord)[i], i + 1) := by
  have hentry : nextEntry ord i 0 (ord.enum m) = some (m.entrySet ord)[i] := by
    rw [nextEntry_eq (Nat.zero_le i)]
    exact List.getElem?_eq_getElem h
  rw [next, hentry]

/-- An iteration visits the pairs one after the other and ends. -/
theorem iterate_eq {fuel i : Nat} (h : (m.entrySet ord).length - i < fuel) :
    iterate ord m fuel i = some (((m.entrySet ord).drop i).map some) := by
  induction fuel generalizing i with
  | zero => omega
  | succ fuel ih =>
      rw [iterate, hasNext, entrySetSize_eq]
      by_cases hi : i < (m.entrySet ord).length
      · rw [if_pos (decide_eq_true hi), next_of_lt hi, ih (by omega), Option.map_some,
          List.drop_eq_getElem_cons hi, List.map_cons]
      · rw [if_neg (by simpa using hi), List.drop_eq_nil_of_le (by omega), List.map_nil]

end

/-! ## What the views show -/

section

omit [DecidableEq β]

variable {ord : HashOrder} {m : MultiHashMap κ β} {held : κ → β → Prop} {left : κ → Prop}

omit [DecidableEq κ] in
theorem unique_enum (h : HashMap.Unique m) : HashMap.Unique (ord.enum m) :=
  ((ord.perm m).pairwise_iff fun hne => hne.symm).mpr h

theorem Refines.get_of_mem (h : Refines m held left) {e : κ × List β} (he : e ∈ m) :
    m.get e.1 = e.2 := by
  rw [MultiHashMap.get, h.unique.get he]
  rfl

theorem Refines.mem_entrySet (h : Refines m held left) {pair : κ × β} :
    pair ∈ m.entrySet ord ↔ held pair.1 pair.2 := by
  rw [← h.held, MultiHashMap.mem_get_iff h.unique]
  exact MultiHashMap.mem_entrySet

/-- No pair is visited twice. -/
theorem Refines.entrySet_nodup (h : Refines m held left) : (m.entrySet ord).Nodup := by
  refine List.nodup_flatMap.mpr ⟨fun e he => ?_, ?_⟩
  · have hnodup : e.2.Nodup := h.get_of_mem (ord.mem_enum.mp he) ▸ h.nodup e.1
    exact ((ord.perm e.2).nodup_iff.mpr hnodup).map fun v w heq => (Prod.mk.inj heq).2
  · refine (unique_enum h.unique).imp fun {d e} hne pair hd he => ?_
    obtain ⟨v, -, rfl⟩ := List.mem_map.mp hd
    obtain ⟨w, -, heq⟩ := List.mem_map.mp he
    exact hne (Prod.mk.inj heq).1.symm

theorem Refines.mem_keySet (h : Refines m held left) {k : κ} : k ∈ keySet ord m ↔ left k := by
  rw [← h.left, keySet, List.mem_map]
  refine ⟨?_, fun hk => ?_⟩
  · rintro ⟨e, he, rfl⟩
    rw [h.unique.get (ord.mem_enum.mp he)]
    rfl
  · obtain ⟨values, hget⟩ := Option.isSome_iff_exists.mp hk
    exact ⟨(k, values), ord.mem_enum.mpr (HashMap.mem_of_get hget), rfl⟩

theorem Refines.keySet_nodup (h : Refines m held left) : (keySet ord m).Nodup :=
  List.pairwise_map.mpr (unique_enum h.unique)

omit [DecidableEq κ] in
theorem length_keySet : (keySet ord m).length = size m := by
  rw [keySet, List.length_map, (ord.perm m).length_eq, size]

theorem containsKey_iff {k : κ} : containsKey m k = true ↔ k ∈ keySet ord m := by
  simp [containsKey, keySet, ord.mem_enum]

theorem Refines.left_of_held (h : Refines m held left) {k : κ} {v : β} (hv : held k v) :
    left k := by
  have hget := (h.held k v).mpr hv
  rw [← h.left]
  cases hm : HashMap.get m k with
  | none => simp [MultiHashMap.get, hm] at hget
  | some values => rfl

end

/-- There are `n` things of the kind. -/
def Counts {α : Type} (n : Nat) (p : α → Prop) : Prop :=
  ∃ l : List α, l.Nodup ∧ (∀ a, a ∈ l ↔ p a) ∧ l.length = n

/-- The values of each key are counted, and an iteration visits each pair once. -/
structure PairsRight (ord : HashOrder) (m : MultiHashMap κ β) (held : κ → β → Prop) : Prop where
  get : ∀ k v, v ∈ m.get k ↔ held k v
  count : ∀ k, Counts (m.count k) (held k)
  entrySetSize : Counts (entrySetSize ord m) fun pair : κ × β => held pair.1 pair.2
  iterate : ∃ pairs : List (κ × β), pairs.Nodup ∧ (∀ pair, pair ∈ pairs ↔ held pair.1 pair.2) ∧
    iterate ord m (pairs.length + 1) 0 = some (pairs.map some)

/-- The keys are those of the pairs. -/
structure KeysRight (ord : HashOrder) (m : MultiHashMap κ β) (held : κ → β → Prop) : Prop where
  keySet : (keySet ord m).Nodup ∧ ∀ k, k ∈ keySet ord m ↔ ∃ v, held k v
  size : Counts (size m) fun k => ∃ v, held k v
  containsKey : ∀ k, containsKey m k = true ↔ ∃ v, held k v

def IsEmptyRight (m : MultiHashMap κ β) (held : κ → β → Prop) : Prop :=
  isEmpty m = true ↔ ∀ k v, ¬ held k v

def ContainsRight (m : MultiHashMap κ β) (held : κ → β → Prop) : Prop :=
  ∀ k v, contains m (.entry k v) = true ↔ held k v

/-- All views describe these pairs. -/
structure AllRight (ord : HashOrder) (m : MultiHashMap κ β) (held : κ → β → Prop) : Prop where
  pairs : PairsRight ord m held
  keys : KeysRight ord m held
  isEmpty : IsEmptyRight m held
  contains : ContainsRight m held

section

omit [DecidableEq β]

variable {ord : HashOrder} {m : MultiHashMap κ β} {held : κ → β → Prop} {left : κ → Prop}

theorem Refines.pairsRight (h : Refines m held left) : PairsRight ord m held where
  get := h.held
  count k := ⟨m.get k, h.nodup k, h.held k, rfl⟩
  entrySetSize := ⟨m.entrySet ord, h.entrySet_nodup, fun _ => h.mem_entrySet, entrySetSize_eq.symm⟩
  iterate := ⟨m.entrySet ord, h.entrySet_nodup, fun _ => h.mem_entrySet,
    iterate_eq (i := 0) (Nat.lt_succ_self _)⟩

/-- The keys are right if no key has been emptied. -/
theorem Refines.keysRight_iff (h : Refines m held left) :
    KeysRight ord m held ↔ ∀ k, left k → ∃ v, held k v := by
  refine ⟨fun hkeys k hk => (hkeys.keySet.2 k).mp (h.mem_keySet.mpr hk), fun hfull => ?_⟩
  have hkey : ∀ k, k ∈ keySet ord m ↔ ∃ v, held k v := fun k =>
    h.mem_keySet.trans ⟨hfull k, fun ⟨_, hv⟩ => h.left_of_held hv⟩
  exact ⟨⟨h.keySet_nodup, hkey⟩, ⟨_, h.keySet_nodup, hkey, length_keySet⟩, fun k =>
    containsKey_iff.trans (hkey k)⟩

theorem Refines.isEmpty_iff (h : Refines m held left) : isEmpty m = true ↔ ∀ k, ¬ left k := by
  simp only [isEmpty, decide_eq_true_iff, List.length_eq_zero_iff]
  refine ⟨?_, fun hno => List.eq_nil_iff_forall_not_mem.mpr fun e he => ?_⟩
  · rintro rfl k hk
    have hget := (h.left k).mpr hk
    simp [HashMap.get] at hget
  · refine hno e.1 ((h.left e.1).mp ?_)
    rw [h.unique.get he]
    rfl

theorem Refines.isEmptyRight_iff (h : Refines m held left) :
    IsEmptyRight m held ↔ (∀ k, ¬ left k) ∨ ∃ k v, held k v := by
  rw [IsEmptyRight, h.isEmpty_iff]
  refine ⟨fun hiff => ?_, ?_⟩
  · by_cases hno : ∀ k v, ¬ held k v
    · exact Or.inl (hiff.mpr hno)
    · obtain ⟨k, hk⟩ := not_forall.mp hno
      obtain ⟨v, hv⟩ := not_forall.mp hk
      exact Or.inr ⟨k, v, not_not.mp hv⟩
  · rintro (hno | ⟨k, v, hv⟩)
    · exact ⟨fun _ k v hv => hno k (h.left_of_held hv), fun _ => hno⟩
    · exact ⟨fun hno => absurd (h.left_of_held hv) (hno k), fun hno => absurd hv (hno k v)⟩

/-- The entry set contains no entry. -/
theorem containsRight_iff : ContainsRight m held ↔ ∀ k v, ¬ held k v := by
  refine ⟨fun hiff k v hv => ?_, fun hno k v => ?_⟩
  · exact Bool.noConfusion ((hiff k v).mpr hv)
  · exact ⟨fun hc => Bool.noConfusion hc, fun hv => absurd hv (hno k v)⟩

theorem Refines.allRight_iff (h : Refines m held left) : AllRight ord m held ↔ ∀ k, ¬ left k := by
  refine ⟨fun hall => ?_, fun hno => ?_⟩
  · have hnone := containsRight_iff.mp hall.contains
    rcases h.isEmptyRight_iff.mp hall.isEmpty with hno | ⟨k, v, hv⟩
    · exact hno
    · exact absurd hv (hnone k v)
  · refine ⟨h.pairsRight, h.keysRight_iff.mpr fun k hk => absurd hk (hno k),
      h.isEmptyRight_iff.mpr (Or.inl hno), containsRight_iff.mpr fun k v hv => ?_⟩
    exact hno k (h.left_of_held hv)

end

/-- In every run the counts and the iteration describe the pairs. The keys do so if no key has been
emptied, `isEmpty` unless all that is left are emptied keys, `contains` if there is no pair; all
views together describe the pairs only if no key is left at all. -/
theorem views_iff (ord : HashOrder) (ops : List (Op κ β)) :
    PairsRight ord (run step [] ops) (held ops) ∧
      (KeysRight ord (run step [] ops) (held ops) ↔ ∀ k, left ops k → ∃ v, held ops k v) ∧
      (IsEmptyRight (run step [] ops) (held ops) ↔
        (∀ k, ¬ left ops k) ∨ ∃ k v, held ops k v) ∧
      (ContainsRight (run step [] ops) (held ops) ↔ ∀ k v, ¬ held ops k v) ∧
      (AllRight ord (run step [] ops) (held ops) ↔ ∀ k, ¬ left ops k) := by
  have h : Refines (run step [] ops) (held ops) (left ops) := refines_nil.run ops
  exact ⟨h.pairsRight, h.keysRight_iff, h.isEmptyRight_iff, containsRight_iff, h.allRight_iff⟩

/-- The pair is there, and the entry set does not contain it; when it has been removed, its key is
still counted. -/
theorem views_emptied :
    ¬ ContainsRight (run step [] [Op.put 1 2]) (held [Op.put 1 2]) ∧
      ¬ KeysRight .insertion (run step [] [Op.put 1 2, .remove 1 2])
        (held [Op.put 1 2, .remove 1 2]) ∧
      ¬ IsEmptyRight (run step [] [Op.put 1 2, .remove 1 2]) (held [Op.put 1 2, .remove 1 2]) := by
  have hno : ∀ k v, ¬ held [Op.put 1 2, .remove 1 2] k v := by
    rintro k v ⟨(hv | hv), hne⟩
    · exact hv
    · exact hne hv
  refine ⟨fun h => ?_, fun h => ?_, fun h => ?_⟩
  · exact Bool.noConfusion ((h 1 2).mpr (Or.inr ⟨rfl, rfl⟩))
  · obtain ⟨v, hv⟩ := (h.containsKey 1).mp (by decide)
    exact hno 1 v hv
  · exact absurd (h.mpr hno) (by decide)

end Freehal.Util.MultiHashMap
