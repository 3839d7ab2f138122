import Mathlib.Data.List.Pairwise

/-!
# Tables with unique columns

A table is given by when two rows clash, that is, agree in columns that have to be unique. No two
rows of a table clash.
-/

namespace Freehal.Lib

structure Table {ρ : Type} (clash : ρ → ρ → Bool) where
  rows : List ρ
  distinct : rows.Pairwise fun a b => clash b a = false

namespace Table

variable {ρ : Type} {clash : ρ → ρ → Bool} {t : Table clash} {row r : ρ}

def empty : Table clash := ⟨[], List.Pairwise.nil⟩

/-- No row of the table clashes with this one. -/
def Free (t : Table clash) (row : ρ) : Prop := ∀ r ∈ t.rows, clash row r = false

instance (t : Table clash) (row : ρ) : Decidable (t.Free row) :=
  inferInstanceAs (Decidable (∀ r ∈ t.rows, clash row r = false))

def push (t : Table clash) (row : ρ) (h : t.Free row) : Table clash where
  rows := t.rows ++ [row]
  distinct := by
    apply List.pairwise_append.mpr
    exact ⟨t.distinct, List.pairwise_singleton _ _, fun a ha b hb => by
      rw [List.mem_singleton.mp hb]; exact h a ha⟩

/-- `INSERT OR IGNORE` -/
def insertOrIgnore (t : Table clash) (row : ρ) : Table clash :=
  if h : t.Free row then t.push row h else t

/-- `INSERT`, which fails on a clash. -/
def insert (t : Table clash) (row : ρ) : Option (Table clash) :=
  if h : t.Free row then some (t.push row h) else none

/-- `DELETE` -/
def delete (t : Table clash) (p : ρ → Bool) : Table clash where
  rows := t.rows.filter fun r => !p r
  distinct := t.distinct.filter _

@[simp] theorem rows_push (h : t.Free row) : (t.push row h).rows = t.rows ++ [row] := rfl

@[simp] theorem rows_delete (p : ρ → Bool) :
    (t.delete p).rows = t.rows.filter fun r => !p r := rfl

theorem not_free (h : ¬ t.Free row) : ∃ r ∈ t.rows, clash row r = true := by
  simpa [Free] using h

/-! ## `INSERT OR IGNORE` -/

theorem rows_insertOrIgnore (h : t.Free row) :
    (t.insertOrIgnore row).rows = t.rows ++ [row] := by
  simp [insertOrIgnore, h]

theorem insertOrIgnore_of_not_free (h : ¬ t.Free row) : t.insertOrIgnore row = t := by
  simp [insertOrIgnore, h]

theorem prefix_insertOrIgnore : t.rows <+: (t.insertOrIgnore row).rows := by
  by_cases h : t.Free row
  · rw [rows_insertOrIgnore h]; exact List.prefix_append _ _
  · exact (insertOrIgnore_of_not_free h).symm ▸ List.prefix_rfl

theorem mem_insertOrIgnore (hr : r ∈ (t.insertOrIgnore row).rows) : r ∈ t.rows ∨ r = row := by
  by_cases h : t.Free row
  · rw [rows_insertOrIgnore h] at hr
    simpa using hr
  · rw [insertOrIgnore_of_not_free h] at hr
    exact Or.inl hr

/-- The row is there, or one that it clashes with. -/
theorem insertOrIgnore_self (t : Table clash) (row : ρ) : row ∈ (t.insertOrIgnore row).rows ∨
    ∃ r ∈ t.rows, clash row r = true := by
  by_cases h : t.Free row
  · rw [rows_insertOrIgnore h]; simp
  · exact Or.inr (not_free h)

/-! ## `INSERT` -/

theorem insert_eq_none : t.insert row = none ↔ ¬ t.Free row := by
  by_cases h : t.Free row <;> simp [insert, h]

theorem insert_of_free (h : t.Free row) : t.insert row = some (t.push row h) := by
  simp [insert, h]

theorem rows_insert {t' : Table clash} (h : t.insert row = some t') :
    t.Free row ∧ t'.rows = t.rows ++ [row] := by
  by_cases hf : t.Free row
  · rw [insert_of_free hf] at h
    cases h
    exact ⟨hf, rfl⟩
  · rw [insert_eq_none.mpr hf] at h
    cases h

/-- Two rows of a table that clash either way are one. -/
theorem eq_of_clash {a b : ρ} (ha : a ∈ t.rows) (hb : b ∈ t.rows)
    (hab : clash a b = true) (hba : clash b a = true) : a = b := by
  have hp : ∀ l : List ρ, l.Pairwise (fun a b => clash b a = false) → a ∈ l → b ∈ l → a = b := by
    intro l hl hal hbl
    induction l with
    | nil => cases hal
    | cons c l ih =>
        obtain ⟨hc, hl⟩ := List.pairwise_cons.mp hl
        rcases List.mem_cons.mp hal with rfl | ha'
        · rcases List.mem_cons.mp hbl with rfl | hb'
          · rfl
          · rw [hc b hb'] at hba; cases hba
        · rcases List.mem_cons.mp hbl with rfl | hb'
          · rw [hc a ha'] at hab; cases hab
          · exact ih hl ha' hb'
  exact hp t.rows t.distinct ha hb

end Table

end Freehal.Lib
