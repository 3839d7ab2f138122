import Freehal.Records.Dataset

/-!
# The columns of the clauses

Which columns `append_on_dataset_record` fills. Whether there is room for another clause is tested
with `>=` where the columns end, so that a clause which would just fit is left out.
-/

namespace Freehal.Records

open Lib (Block)

variable {offset limit : Nat}

/-! ## Filling a part of a record -/

theorem fill_append (record : Record) (offset : Nat) (texts texts' : List Str) :
    fill record offset (texts ++ texts') =
      (fill record offset texts).bind fun record => fill record (offset + texts.length) texts' := by
  induction texts generalizing record offset with
  | nil => rfl
  | cons text texts ih =>
      have hoffset : offset + (text :: texts).length = offset + 1 + texts.length := by
        rw [List.length_cons]
        omega
      rw [List.cons_append, fill, fill, hoffset]
      cases record.write offset (some text) with
      | none => rfl
      | some next => exact ih next (offset + 1)

/-- Where there is room, the texts are written one behind the other, and nothing else changes. -/
theorem fill_spec {texts : List Str} {record : Record} {offset : Nat}
    (h : offset + texts.length ≤ record.size) :
    ∃ record', fill record offset texts = some record' ∧ record'.size = record.size ∧
      (∀ i text, texts[i]? = some text → record'.read (offset + i : Nat) = some (some text)) ∧
      ∀ m : Nat, (m < offset ∨ offset + texts.length ≤ m) → record'.read m = record.read m := by
  induction texts generalizing record offset with
  | nil => exact ⟨record, rfl, rfl, fun i text hi => by simp at hi, fun m _ => rfl⟩
  | cons text texts ih =>
      rw [List.length_cons] at h
      obtain ⟨next, hwrite⟩ := @Block.exists_write _ record (some text) (offset : Nat) (by omega)
        (by omega)
      have hsize := Block.size_write hwrite
      obtain ⟨record', hfill, hsize', htexts, hrest⟩ := @ih next (offset + 1) (by omega)
      refine ⟨record', by rw [fill, hwrite]; exact hfill, hsize'.trans hsize, fun i t hi => ?_,
        fun m hm => ?_⟩
      · cases i with
        | zero =>
            rw [hrest (offset + 0) (Or.inl (by omega))]
            rw [List.getElem?_cons_zero] at hi
            cases hi
            exact Block.read_write_self hwrite
        | succ i =>
            have hi := htexts i t (by simpa using hi)
            rwa [Nat.add_assoc, Nat.add_comm 1 i] at hi
      · rw [List.length_cons] at hm
        rw [hrest m (by omega), Block.read_write_of_ne hwrite (by omega)]

/-! ## How many clauses are written -/

/-- How many clauses come before the loop is left. -/
def room (offset limit : Nat) : Nat := max 1 ((limit - offset + 5) / 6 - 1)

/-- The columns of so many clauses. -/
def clauseColumns (facts : List Fact) (count : Nat) : List Str :=
  (facts.take count).flatMap Fact.clauseTexts

theorem clauseTexts_length (f : Fact) : f.clauseTexts.length = 6 := rfl

theorem clauseColumns_length {facts : List Fact} {count : Nat} (h : count ≤ facts.length) :
    (clauseColumns facts count).length = count * 6 := by
  induction facts generalizing count with
  | nil =>
      obtain rfl := Nat.le_zero.mp h
      rfl
  | cons f facts ih =>
      cases count with
      | zero => rfl
      | succ count =>
          have hlength := ih (Nat.le_of_succ_le_succ h)
          rw [clauseColumns, List.take_succ_cons, List.flatMap_cons, List.length_append,
            clauseTexts_length]
          rw [clauseColumns] at hlength
          omega

/-- Column `j` of clause `k`. -/
theorem clauseColumns_getElem {facts : List Fact} {count k j : Nat} {f : Fact} (hk : k < count)
    (hf : facts[k]? = some f) (hj : j < 6) :
    (clauseColumns facts count)[k * 6 + j]? = f.clauseTexts[j]? := by
  induction facts generalizing count k with
  | nil => simp at hf
  | cons g facts ih =>
      obtain ⟨count, rfl⟩ : ∃ n, count = n + 1 := ⟨count - 1, by omega⟩
      rw [clauseColumns, List.take_succ_cons, List.flatMap_cons]
      cases k with
      | zero =>
          rw [List.getElem?_cons_zero] at hf
          cases hf
          rw [List.getElem?_append_left (by rw [clauseTexts_length]; omega), Nat.zero_mul,
            Nat.zero_add]
      | succ k =>
          have hrest := ih (Nat.lt_of_succ_lt_succ hk) (by simpa using hf)
          have hsub : (k + 1) * 6 + j - 6 = k * 6 + j := by omega
          rw [List.getElem?_append_right (by rw [clauseTexts_length]; omega), clauseTexts_length,
            hsub]
          exact hrest

/-- The loop is left behind clause `d` if no more than `d + 1` clauses have room. -/
theorem limit_le_iff (h : offset + 6 ≤ limit) (d : Nat) :
    limit ≤ offset + d * 6 + 6 * 2 ↔ room offset limit ≤ d + 1 := by
  unfold room
  omega

/-- From clause `d` on, the clauses that have room are written. -/
theorem appendFrom_facts (h : offset + 6 ≤ limit) {d columnCount : Nat} {record : Record}
    {facts : List Fact} (hd : d < room offset limit) :
    appendFrom offset limit d record columnCount (facts.map .fact) =
      (fill record (offset + d * 6) (clauseColumns facts (room offset limit - d))).map (·,
        if facts = [] then columnCount
        else offset + (d + min facts.length (room offset limit - d)) * 6) := by
  induction facts generalizing d columnCount record with
  | nil => simp [appendFrom, clauseColumns, fill]
  | cons f facts ih =>
      obtain ⟨r, hr⟩ : ∃ r, room offset limit - d = r + 1 := ⟨room offset limit - d - 1, by omega⟩
      have hcolumns : clauseColumns (f :: facts) (r + 1) =
          f.clauseTexts ++ clauseColumns facts r := by
        rw [clauseColumns, List.take_succ_cons, List.flatMap_cons, clauseColumns]
      rw [List.map_cons, appendFrom, hr, hcolumns, fill_append, if_neg (List.cons_ne_nil _ _),
        clauseTexts_length, List.length_cons]
      cases fill record (offset + d * 6) f.clauseTexts with
      | none => rfl
      | some next =>
          simp only [Option.bind_eq_bind, Option.bind_some, limit_le_iff h]
          by_cases hlast : room offset limit ≤ d + 1
          · have hr0 : r = 0 := by omega
            have hcount : offset + (d + min (facts.length + 1) 1) * 6 = offset + d * 6 + 6 := by
              omega
            subst hr0
            rw [if_pos hlast, hcount]
            rfl
          · have hsub : room offset limit - (d + 1) = r := by omega
            have hoffset : offset + (d + 1) * 6 = offset + d * 6 + 6 := by omega
            rw [if_neg hlast, ih (by omega), hsub, hoffset]
            cases facts with
            | nil => simp [hoffset]
            | cons g facts =>
                have hcount : d + 1 + min (g :: facts).length r =
                    d + min ((g :: facts).length + 1) (r + 1) := by omega
                rw [if_neg (List.cons_ne_nil _ _), hcount]

/-- The call fills the columns of the clauses that have room, and returns the column behind them. -/
theorem appendOnDatasetRecord_eq (h : offset + 6 ≤ limit) (record : Record) (facts : List Fact) :
    appendOnDatasetRecord offset limit record (some (facts.map .fact)) =
      (fill record offset (clauseColumns facts (min facts.length (room offset limit)))).map
        (·, offset + min facts.length (room offset limit) * 6) := by
  have hroom : 0 < room offset limit := Nat.lt_of_lt_of_le Nat.one_pos (Nat.le_max_left _ _)
  have htake : clauseColumns facts (min facts.length (room offset limit)) =
      clauseColumns facts (room offset limit) := by
    rw [clauseColumns, Nat.min_comm, ← List.take_eq_take_min, clauseColumns]
  rw [appendOnDatasetRecord, appendFrom_facts h hroom, htake, Nat.zero_mul, Nat.add_zero,
    Nat.sub_zero, Nat.zero_add]
  cases facts with
  | nil => simp
  | cons f facts => rw [if_neg (List.cons_ne_nil _ _)]

/-! ## Clauses that fit -/

/-- The first `count` clauses stand one behind the other from `offset` on, and nothing else has
changed. -/
structure Placed (offset : Nat) (facts : List Fact) (count : Nat) (record record' : Record) :
    Prop where
  size : record'.size = record.size
  clause : ∀ k f j, k < count → facts[k]? = some f → j < 6 →
    record'.read (offset + 6 * k + j : Nat) = some f.clauseTexts[j]?
  rest : ∀ m : Nat, (m < offset ∨ offset + 6 * count ≤ m) → record'.read m = record.read m

/-- On every record up to the limit, this many leading clauses are written, and the index behind
their last column is returned. -/
def WritesLeading (offset limit : Nat) (facts : List Fact) (count : Nat) : Prop :=
  ∀ record : Record, limit ≤ record.size → ∃ record',
    appendOnDatasetRecord offset limit record (some (facts.map .fact)) =
      some (record', offset + 6 * count) ∧ Placed offset facts count record record'

theorem room_fits (h : offset + 6 ≤ limit) : offset + 6 * room offset limit ≤ limit := by
  unfold room
  omega

theorem writesLeading_room (h : offset + 6 ≤ limit) (facts : List Fact) :
    WritesLeading offset limit facts (min facts.length (room offset limit)) := by
  intro record hsize
  have hle : min facts.length (room offset limit) ≤ facts.length := Nat.min_le_left _ _
  have hlength := clauseColumns_length hle
  have hfits := room_fits h
  obtain ⟨record', hfill, hsize', htexts, hrest⟩ := @fill_spec
    (clauseColumns facts (min facts.length (room offset limit))) record offset
    (by rw [hlength]; omega)
  refine ⟨record', ?_, hsize', fun k f j hk hf hj => ?_, fun m hm => hrest m ?_⟩
  · rw [appendOnDatasetRecord_eq h, hfill, Nat.mul_comm 6]
    rfl
  · have hcell := clauseColumns_getElem hk hf hj
    have hj : j < f.clauseTexts.length := hj
    rw [List.getElem?_eq_getElem hj] at hcell ⊢
    have hread := htexts _ _ hcell
    rwa [← Nat.add_assoc, Nat.mul_comm k] at hread
  · rw [hlength]
    omega

/-- All columns that are written lie between `offset` and `limit`, without a gap. These are the
clauses that fit if and only if the limit does not end a clause, or there is room for one clause
only, or fewer clauses than fit. -/
theorem writesLeading_iff (h : offset + 6 ≤ limit) (facts : List Fact) :
    (∃ count, offset + 6 * count ≤ limit ∧ WritesLeading offset limit facts count) ∧
      (WritesLeading offset limit facts (min facts.length ((limit - offset) / 6)) ↔
        (limit - offset) % 6 ≠ 0 ∨ limit - offset = 6 ∨ facts.length < (limit - offset) / 6) := by
  have hwrites := writesLeading_room h facts
  have hfits := room_fits h
  refine ⟨⟨_, by omega, hwrites⟩, ?_⟩
  have hcount : min facts.length ((limit - offset) / 6) = min facts.length (room offset limit) ↔
      (limit - offset) % 6 ≠ 0 ∨ limit - offset = 6 ∨ facts.length < (limit - offset) / 6 := by
    unfold room
    omega
  rw [← hcount]
  refine ⟨fun hall => ?_, fun heq => heq ▸ hwrites⟩
  obtain ⟨record', hresult, -⟩ := hall (Block.calloc limit none) (by rw [Block.size_calloc])
  obtain ⟨record'', hresult', -⟩ := hwrites (Block.calloc limit none) (by rw [Block.size_calloc])
  have hreturned := congrArg Prod.snd (Option.some.inj (hresult.symm.trans hresult'))
  dsimp only at hreturned
  omega

/-- A clause without any words. -/
def blankClause : Fact := ⟨1, [], [], [], [], none, none, none, 1⟩

/-- The limit of `as_dataset` does not end a clause. -/
theorem writesLeading_dataset :
    WritesLeading 9 100 [blankClause, blankClause]
      (min [blankClause, blankClause].length ((100 - 9) / 6)) :=
  (writesLeading_iff (by decide) _).2.mpr (Or.inl (by decide))

/-- The second clause would end at the limit. -/
theorem writesLeading_limit :
    ¬ WritesLeading 9 21 [blankClause, blankClause]
      (min [blankClause, blankClause].length ((21 - 9) / 6)) := by
  intro h
  obtain ⟨record', hresult, -⟩ := h (Block.calloc 21 none) (by rw [Block.size_calloc])
  rw [appendOnDatasetRecord_eq (by decide), Option.map_eq_some_iff] at hresult
  obtain ⟨record, -, heq⟩ := hresult
  have hreturned : 9 + min 2 (room 9 21) * 6 = 9 + 6 * min 2 ((21 - 9) / 6) :=
    congrArg Prod.snd heq
  exact absurd hreturned (by decide)

end Freehal.Records
