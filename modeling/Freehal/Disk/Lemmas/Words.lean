import Mathlib.Data.List.TakeWhile
import Freehal.Disk.Engine
import Freehal.Universal.Lemmas.Numbers

/-!
# Word ids

The counter for word ids is never behind the table of words, and what the statements that
`sql_set_word` writes do to the table.
-/

namespace Freehal.Disk

open Lib (Table runScript)
open Universal (Config toNumber toNumber_signed)

/-! ## Numbers -/

theorem ofDigitChars_take_le (digits : Str) (k init : Nat) :
    Nat.ofDigitChars 10 (digits.take k) init ≤ Nat.ofDigitChars 10 digits init := by
  induction digits generalizing k init with
  | nil => simp
  | cons c digits ih =>
      cases k with
      | zero =>
          have := ih 0 (10 * init + (c.toNat - '0'.toNat))
          simp only [List.take_zero, Nat.ofDigitChars_nil, Nat.ofDigitChars_cons] at this ⊢
          omega
      | succ k => simpa [Nat.ofDigitChars_cons] using ih k _

theorem clipped_le {i : Int} (h : 0 ≤ i) : clipped i ≤ i := by
  cases i with
  | ofNat n =>
      have := ofDigitChars_take_le (Lib.decimal n) 8 0
      rw [Lib.ofDigitChars_decimal] at this
      simp only [clipped, Int.ofNat_eq_natCast]
      omega
  | negSucc n => exact absurd h (by simp)

theorem clipped_of_lt {i : Int} (h : 0 ≤ i) (hlt : i < 100000000) : clipped i = i := by
  cases i with
  | ofNat n =>
      have hlen : (Lib.decimal n).length ≤ 8 := by
        apply Lib.length_decimal_le_eight
        simp only [Int.ofNat_eq_natCast] at hlt
        omega
      simp only [clipped, List.take_of_length_le hlen, Lib.ofDigitChars_decimal]
      rfl
  | negSucc n => exact absurd h (by simp)

/-! ## The counter -/

/-- No id is above `c`. -/
def Below (t : Table WordRow.clash) (c : Int) : Prop := ∀ row ∈ t.rows, row.id ≤ c

/-- The counter is unset or not behind the table. -/
structure Counted (s : State) : Prop where
  nonempty : s.db.word.rows ≠ []
  below : -1 < s.cacheWordid → Below s.db.word s.cacheWordid

theorem Below.mono {t : Table WordRow.clash} {c c' : Int} (h : Below t c) (hc : c ≤ c') :
    Below t c' := fun row hrow => Int.le_trans (h row hrow) hc

theorem below_insertOrIgnore {t : Table WordRow.clash} {c id : Int} (word : Str) (h : Below t c)
    (hid : id ≤ c) : Below (t.insertOrIgnore ⟨id, word⟩) c := by
  intro row hrow
  rcases Table.mem_insertOrIgnore hrow with hrow | rfl
  · exact h row hrow
  · exact hid

theorem lastKey_bound (key : Int) {ids : List Int} (h : ids ≠ []) :
    0 ≤ lastKey key ids ∧ ∀ id ∈ ids, id ≤ lastKey key ids := by
  obtain ⟨m, hm⟩ : ∃ m, ids.max? = some m := by
    cases hmax : ids.max? with
    | none => exact absurd (List.max?_eq_none_iff.mp hmax) h
    | some m => exact ⟨m, rfl⟩
  have hle : ∀ id ∈ ids, id ≤ m := (List.max?_eq_some_iff.mp hm).2
  simp only [lastKey, lastId, hm, toNumber_signed]
  exact ⟨by omega, fun id hid => by have := hle id hid; omega⟩

/-- What a call of `get_last_wordid` returns and does. -/
theorem getLastWordid_spec (key : Int) {s : State} (h : Counted s) :
    ∃ id, getLastWordid key s = (id, { s with cacheWordid := id }) ∧ 0 ≤ id
      ∧ Below s.db.word id ∧ s.cacheWordid ≤ id := by
  unfold getLastWordid
  by_cases hc : s.cacheWordid > -1
  · have := (h.below hc).mono (show s.cacheWordid ≤ s.cacheWordid + 1 by omega)
    simp only [hc, if_true]
    exact ⟨_, rfl, by omega, this, by omega⟩
  · have hne : s.db.word.rows.map (·.id) ≠ [] := by simpa using h.nonempty
    obtain ⟨h0, hle⟩ := lastKey_bound key hne
    simp only [hc, if_false]
    exact ⟨_, rfl, h0, fun row hrow => hle _ (List.mem_map_of_mem hrow), by omega⟩

theorem getLastWordid_warm {key : Int} {s : State} (h : -1 < s.cacheWordid) :
    getLastWordid key s = (s.cacheWordid + 1, { s with cacheWordid := s.cacheWordid + 1 }) := by
  simp [getLastWordid, h]

/-! ## Writing scripts -/

/-- The ids that the script writes into the table of words are at most `c`. -/
def Bounded (c : Int) (script : List Statement) : Prop :=
  ∀ id word, .insertWord id word ∈ script → id ≤ c

/-- Writing a script moves the counter and nothing else. -/
structure Generates (s : State) (script : List Statement) (s' : State) : Prop where
  frame : s' = { s with cacheWordid := s'.cacheWordid }
  counted : Counted s'
  mono : s.cacheWordid ≤ s'.cacheWordid
  bounded : Bounded s'.cacheWordid script

theorem Generates.refl {s : State} (h : Counted s) : Generates s [] s :=
  ⟨rfl, h, Int.le_refl _, fun _ _ hm => by cases hm⟩

theorem Generates.trans {s s₁ s₂ : State} {first second : List Statement}
    (h₁ : Generates s first s₁) (h₂ : Generates s₁ second s₂) :
    Generates s (first ++ second) s₂ where
  frame := by rw [h₂.frame, h₁.frame]
  counted := h₂.counted
  mono := Int.le_trans h₁.mono h₂.mono
  bounded id word hm := by
    rcases List.mem_append.mp hm with hm | hm
    · exact Int.le_trans (h₁.bounded id word hm) h₂.mono
    · exact h₂.bounded id word hm

/-- Statements that set no words. -/
theorem Generates.append {s s' : State} {script rest : List Statement}
    (h : Generates s script s') (hrest : ∀ id word, .insertWord id word ∉ rest) :
    Generates s (script ++ rest) s' where
  frame := h.frame
  counted := h.counted
  mono := h.mono
  bounded id word hm := by
    rcases List.mem_append.mp hm with hm | hm
    · exact h.bounded id word hm
    · exact absurd hm (hrest id word)

theorem sqlSetWord_blank {word : Str} (h : word.head? = some ' ') (key : Int) (s : State) :
    sqlSetWord key word s = ([], s) := by
  unfold sqlSetWord
  rw [if_pos h]
  rfl

theorem sqlSetWord_eq {word : Str} (h : word.head? ≠ some ' ') (key : Int) (s : State) :
    sqlSetWord key word s = ([.insertWord (clipped (getLastWordid key s).1) (stored word)],
      (getLastWordid key s).2) := by
  unfold sqlSetWord
  rw [if_neg h]
  rfl

theorem sqlSetWord_generates (key : Int) (word : Str) {s : State} (h : Counted s) :
    Generates s (sqlSetWord key word s).1 (sqlSetWord key word s).2 := by
  by_cases hb : word.head? = some ' '
  · rw [sqlSetWord_blank hb]
    exact Generates.refl h
  · obtain ⟨id, hid, h0, hbelow, hmono⟩ := getLastWordid_spec key h
    rw [sqlSetWord_eq hb, hid]
    exact ⟨rfl, ⟨h.nonempty, fun _ => hbelow⟩, hmono, fun id' word' hm => by
      simp only [List.mem_singleton, Statement.insertWord.injEq] at hm
      rw [hm.1]
      exact clipped_le h0⟩

theorem getLastWordid_db (key : Int) (s : State) : (getLastWordid key s).2.db = s.db := rfl

theorem sqlSetWord_db (key : Int) (word : Str) (s : State) :
    (sqlSetWord key word s).2.db = s.db := by
  by_cases hb : word.head? = some ' '
  · rw [sqlSetWord_blank hb]
  · rw [sqlSetWord_eq hb, getLastWordid_db]

theorem mapM_db {g : Str → StateM State (List Statement)} (words : List Str)
    (hg : ∀ w s, (g w s).2.db = s.db) (s : State) : (words.mapM g s).2.db = s.db := by
  induction words generalizing s with
  | nil => rfl
  | cons w words ih =>
      rw [List.mapM_cons]
      exact (ih _).trans (hg w s)

theorem genSqlAddEntry_db (key pk rel : Int) (e : Entry) (s : State) :
    (genSqlAddEntry key pk rel e s).2.db = s.db :=
  mapM_db e.setWords (sqlSetWord_db key) s

theorem genSqlAddWordFactRelations_db (cfg : Config) (key pk rel : Int) (e : Entry) (s : State) :
    (genSqlAddWordFactRelations cfg key pk rel e s).2.db = s.db := by
  apply mapM_db
  intro w s
  exact sqlSetWord_db key w s

theorem mapM_generates {g : Str → StateM State (List Statement)} (words : List Str)
    (hg : ∀ w ∈ words, ∀ s, Counted s → Generates s (g w s).1 (g w s).2) {s : State}
    (h : Counted s) : Generates s (words.mapM g s).1.flatten (words.mapM g s).2 := by
  induction words generalizing s with
  | nil => exact Generates.refl h
  | cons w words ih =>
      have h₁ := hg w (by simp) s h
      have h₂ := ih (fun v hv => hg v (by simp [hv])) h₁.counted
      rw [List.mapM_cons]
      exact h₁.trans h₂

theorem genSqlAddEntry_eq (key pk rel : Int) (e : Entry) (s : State) :
    genSqlAddEntry key pk rel e s = ((e.setWords.mapM (sqlSetWord key) s).1.flatten
      ++ (if e.isSynonym rel then [e.insertSynonym] else []) ++ [e.insertEntry pk rel],
      (e.setWords.mapM (sqlSetWord key) s).2) := rfl

theorem genSqlAddEntry_generates (key pk rel : Int) (e : Entry) {s : State} (h : Counted s) :
    Generates s (genSqlAddEntry key pk rel e s).1 (genSqlAddEntry key pk rel e s).2 := by
  have hwords := mapM_generates e.setWords
    (fun w _ s hs => sqlSetWord_generates key w hs) h
  have hrest : ∀ id word, Statement.insertWord id word ∉
      (if e.isSynonym rel then [e.insertSynonym] else []) ++ [e.insertEntry pk rel] := by
    intro id word hm
    split at hm <;> simp [Entry.insertSynonym, Entry.insertEntry] at hm
  rw [genSqlAddEntry_eq, List.append_assoc]
  exact hwords.append hrest

theorem genSqlAddWordFactRelations_generates (cfg : Config) (key pk rel : Int) (e : Entry)
    {s : State} (h : Counted s) :
    Generates s (genSqlAddWordFactRelations cfg key pk rel e s).1
      (genSqlAddWordFactRelations cfg key pk rel e s).2 := by
  apply mapM_generates _ _ h
  intro w _ s hs
  apply (sqlSetWord_generates key w hs).append
  simp

end Freehal.Disk
