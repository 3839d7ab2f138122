import Freehal.Storage.BerkeleyDb

/-!
# Theorems about the key-value database in files

What is read is the least of the values that were set since the key was removed, and so the latest
one exactly where that one is the least.
-/

namespace Freehal.Storage

open Lib (Duplicates HashMap HashOrder run)

variable {α : Type} {ser : Serializer α} {env : Environment} {key key' dbname dbname' : Str}

/-! ## What a database holds -/

/-- The pairs of a database, none where it is not there. -/
def held (env : Environment) (dbname : Str) : Duplicates Str Str :=
  (HashMap.get env dbname).getD []

theorem getDatabase_fst : (getDatabase env dbname).1 = held env dbname := by
  unfold getDatabase held
  split <;> simp [*]

theorem held_put (db : Duplicates Str Str) : held (HashMap.put env dbname db) dbname'
    = if dbname' = dbname then db else held env dbname' := by
  rw [held, HashMap.get_put]
  split <;> rfl

theorem held_getDatabase : held (getDatabase env dbname).2 dbname' = held env dbname' := by
  unfold getDatabase
  split
  · rfl
  · rename_i h
    rw [held_put]
    split
    · rename_i hd
      subst hd
      simp [held, h]
    · rfl

theorem held_set (value : α) : held (set ser env key value dbname) dbname'
    = if dbname' = dbname then (held env dbname).put key (ser.toString value)
      else held env dbname' := by
  rw [set, held_put, getDatabase_fst, held_getDatabase]

theorem held_remove : held (remove env (some key) dbname) dbname'
    = if dbname' = dbname then (held env dbname).delete key else held env dbname' := by
  simp only [remove]
  rw [held_put, getDatabase_fst, held_getDatabase]

theorem held_removeEverything : held (remove env none dbname) dbname'
    = if dbname' = dbname then [] else held env dbname' := by
  simp only [remove]
  split
  · exact held_put []
  · rename_i h
    split
    · rename_i hd
      subst hd
      simp [held, Option.not_isSome_iff_eq_none.mp h]
    · rfl

theorem get_fst : (get ser env key dbname).1
    = ((held env dbname).get key).map ser.fromString := by
  rw [← getDatabase_fst]
  rfl

/-! ## Along a history -/

/-- The pairs of the environment are those of the values that were set. -/
def Holds (ser : Serializer α) (env : Environment) (ops : List (Operation α)) : Prop :=
  ∀ key dbname x, (key, x) ∈ held env dbname ↔ ∃ v ∈ valuesOf ops key dbname, x = ser.toString v

theorem holds_step {ops : List (Operation α)} (op : Operation α) (h : Holds ser env ops) :
    Holds ser (step ser env op) (ops ++ [op]) := by
  intro key dbname x
  have hvalues : valuesOf (ops ++ [op]) key dbname
      = updateValues key dbname (valuesOf ops key dbname) op := by
    simp [valuesOf]
  rw [hvalues]
  cases op with
  | set key' value dbname' =>
      rw [step, held_set]
      by_cases hd : dbname' = dbname
      · subst hd
        by_cases hk : key' = key
        · subst hk
          simp [Duplicates.mem_put, h key' dbname' x, updateValues, or_and_right, exists_or]
        · have hk' : ¬ key = key' := fun he => hk he.symm
          simp [Duplicates.mem_put, h key dbname' x, updateValues, hk, hk']
      · have hd' : ¬ dbname = dbname' := fun he => hd he.symm
        simp [h key dbname x, updateValues, hd, hd']
  | remove key' dbname' =>
      cases key' with
      | some key' =>
          rw [step, held_remove]
          by_cases hd : dbname' = dbname
          · subst hd
            by_cases hk : key' = key
            · subst hk
              simp [Duplicates.mem_delete, updateValues]
            · have hk' : ¬ key = key' := fun he => hk he.symm
              simp [Duplicates.mem_delete, h key dbname' x, updateValues, hk, hk']
          · have hd' : ¬ dbname = dbname' := fun he => hd he.symm
            simp [h key dbname x, updateValues, hd, hd']
      | none =>
          rw [step, held_removeEverything]
          by_cases hd : dbname' = dbname
          · subst hd
            simp [updateValues]
          · have hd' : ¬ dbname = dbname' := fun he => hd he.symm
            simp [h key dbname x, updateValues, hd, hd']

theorem holds_run (ser : Serializer α) (ops : List (Operation α)) :
    Holds ser (run (step ser) [] ops) ops := by
  induction ops using List.reverseRecOn with
  | nil =>
      intro key dbname x
      simp [held, valuesOf, HashMap.get]
  | append_singleton ops op ih =>
      rw [Lib.run_append]
      exact holds_step op ih

theorem getDatabase_unique (h : HashMap.Unique env) :
    HashMap.Unique (getDatabase env dbname).2 := by
  unfold getDatabase
  split
  · exact h
  · exact h.put dbname []

theorem step_unique (op : Operation α) (h : HashMap.Unique env) :
    HashMap.Unique (step ser env op) := by
  cases op with
  | set key value dbname => exact (getDatabase_unique h).put _ _
  | remove key dbname =>
      cases key with
      | some key => exact (getDatabase_unique h).put _ _
      | none =>
          simp only [step, remove]
          split
          · exact h.put _ _
          · exact h

theorem run_unique (ops : List (Operation α)) :
    HashMap.Unique (run (step ser) ([] : Environment) ops) :=
  Lib.run_induction HashMap.Unique.nil fun _ op => step_unique op

/-! ## The latest value -/

/-- The text of the latest value is the least of those that were set since the key was removed. -/
def LatestLeast (ser : Serializer α) (ops : List (Operation α)) : Prop :=
  ∀ key dbname l, latest ops key dbname = some l →
    ∀ v ∈ valuesOf ops key dbname, ser.toString l ≤ ser.toString v

/-- Both ways of reading find the latest values. -/
def Exact (ser : Serializer α) (ord : HashOrder) (ops : List (Operation α)) : Prop :=
  let env := run (step ser) [] ops
  (∀ key dbname, (get ser env key dbname).1 = latest ops key dbname)
    ∧ ∀ key, ∃ names : List Str, names.Nodup
      ∧ (∀ dbname v, latest ops key dbname = some v → dbname ∈ names)
      ∧ getAll ser ord env key = ser.fromString
        (names.flatMap fun dbname => ((latest ops key dbname).map ser.toString).getD [])

theorem least_of_get {ops : List (Operation α)} (h : Holds ser env ops) {l : α}
    (hget : (get ser env key dbname).1 = some l) :
    ∀ v ∈ valuesOf ops key dbname, ser.toString l ≤ ser.toString v := by
  rw [get_fst, Option.map_eq_some_iff] at hget
  obtain ⟨x, hx, hl⟩ := hget
  obtain ⟨hmem, hleast⟩ := Duplicates.get_eq_some.mp hx
  obtain ⟨v, _, hv⟩ := (h key dbname x).mp hmem
  -- the text that was read is the text of the value that it gives
  have hxl : x = ser.toString l := by
    rw [← hl, hv, ser.fromString_toString]
  intro v hv
  rw [← hxl]
  exact hleast _ ((h key dbname _).mpr ⟨v, hv, rfl⟩)

theorem get_of_least {ops : List (Operation α)} (h : Holds ser env ops)
    (hleast : LatestLeast ser ops) (key dbname : Str) :
    (held env dbname).get key = (latest ops key dbname).map ser.toString := by
  cases hl : latest ops key dbname with
  | none =>
      have hnil : valuesOf ops key dbname = [] := List.getLast?_eq_none_iff.mp hl
      apply Duplicates.get_eq_none.mpr
      intro y hy
      obtain ⟨v, hv, _⟩ := (h key dbname y).mp hy
      rw [hnil] at hv
      cases hv
  | some l =>
      apply Duplicates.get_eq_some.mpr
      refine ⟨(h key dbname _).mpr ⟨l, List.mem_of_getLast? hl, rfl⟩, fun y hy => ?_⟩
      obtain ⟨v, hv, rfl⟩ := (h key dbname y).mp hy
      exact hleast key dbname l hl v hv

def texts : Serializer Str := ⟨id, id, fun _ => rfl⟩

def lengths : List (Operation Str) :=
  [.set "brain.pos".toList "10".toList "files".toList,
    .set "brain.pos".toList "9".toList "files".toList]

end Freehal.Storage
