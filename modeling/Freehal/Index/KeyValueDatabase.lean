import Freehal.Lib.Text

/-!
# Key-value databases

The interface `KeyValueDatabase` for values that are collections, with what its users rely on.
A transaction writes through.
-/

namespace Freehal.Index

/-- `entry` is what a named database holds under a key. -/
structure KeyValueDatabase (σ α : Type) where
  entry : σ → Str → Str → List α
  get : σ → Str → List α
  set : σ → Str → List α → Str → σ
  removeEverything : σ → Str → σ
  /-- `get(key)` collects the values over all database names. -/
  mem_get : ∀ s key x, x ∈ get s key ↔ ∃ dbname, x ∈ entry s dbname key
  /-- What `set` does where nothing is stored yet. -/
  entry_set : ∀ s key value dbname, entry s dbname key = [] → ∀ dbname' key',
    entry (set s key value dbname) dbname' key'
      = if dbname' = dbname ∧ key' = key then value else entry s dbname' key'
  /-- `remove(null, dbname)` empties the database. -/
  entry_removeEverything : ∀ s dbname dbname' key,
    entry (removeEverything s dbname) dbname' key = if dbname' = dbname then [] else entry s dbname' key

variable {σ α : Type} (kv : KeyValueDatabase σ α)

def KeyValueDatabase.Empty (s : σ) : Prop := ∀ dbname key, kv.entry s dbname key = []

/-! ## A table -/

/-- The rows of a table: database name, key and value. -/
abbrev Table (α : Type) := List (Str × Str × List α)

/-- All the rows of one key of one database. -/
def Table.entry (t : Table α) (dbname key : Str) : List α :=
  (t.filter fun row => row.1 = dbname ∧ row.2.1 = key).flatMap (·.2.2)

/-- A key-value database that keeps its rows in one table. -/
def Table.database (α : Type) : KeyValueDatabase (Table α) α where
  entry := Table.entry
  get t key := (t.filter fun row => row.2.1 = key).flatMap (·.2.2)
  set t key value dbname := t ++ [(dbname, key, value)]
  removeEverything t dbname := t.filter fun row => ¬ row.1 = dbname
  mem_get t key x := by
    simp only [Table.entry, List.mem_flatMap, List.mem_filter, decide_eq_true_eq]
    constructor
    · rintro ⟨row, ⟨hrow, hkey⟩, hx⟩
      exact ⟨row.1, row, ⟨hrow, rfl, hkey⟩, hx⟩
    · rintro ⟨dbname, row, ⟨hrow, _, hkey⟩, hx⟩
      exact ⟨row, ⟨hrow, hkey⟩, hx⟩
  entry_set t key value dbname h dbname' key' := by
    simp only [Table.entry, List.filter_append, List.flatMap_append] at h ⊢
    by_cases hk : dbname = dbname' ∧ key = key'
    · obtain ⟨rfl, rfl⟩ := hk
      rw [h, if_pos ⟨rfl, rfl⟩]
      simp
    · have hk' : ¬ (dbname' = dbname ∧ key' = key) := fun hk' => hk ⟨hk'.1.symm, hk'.2.symm⟩
      simp [hk, hk']
  entry_removeEverything t dbname dbname' key := by
    simp only [Table.entry, List.filter_filter]
    by_cases hd : dbname' = dbname
    · subst hd
      simp only [↓reduceIte, List.flatMap_eq_nil_iff, List.mem_filter, Bool.and_eq_true,
        decide_eq_true_eq]
      rintro row ⟨_, ⟨hrow, _⟩, hne⟩
      exact absurd hrow hne
    · rw [if_neg hd]
      congr 1
      refine List.filter_congr fun row _ => ?_
      by_cases hrow : row.1 = dbname'
      · simp [hrow, hd]
      · simp [hrow]

end Freehal.Index
