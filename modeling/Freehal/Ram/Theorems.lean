import Freehal.Ram.Clauses

/-!
# Searching the clauses after any run

What the table and the clauses of each fact hold after every insertion, and when a search is
complete.
-/

namespace Freehal.Ram

open Lib (Block)

/-! ## The table of facts -/

/-- The table maps each key to the fact with this address. Beyond the facts nothing was written to
it, but for the slot that it begins with. -/
structure Table (s : Engine) : Prop where
  start : s.size = 0 → s.allocatedUntil = 0 ∧ s.list = Block.calloc 1 none
  room : s.size ≤ s.allocatedUntil
  length : s.list.size = s.allocatedUntil + 1
  filled : ∀ k : Nat, k < s.size → s.list.read k = some (some k)
  rest : ∀ k : Nat, 0 < s.size → s.size ≤ k → s.list.read k = none

variable {s s' : Engine} {log : Log} {rel : Int} {f : Fact} {n : Nat}

theorem table_ramBegin : Table ramBegin where
  start := fun _ => ⟨rfl, rfl⟩
  room := Nat.le_refl _
  length := Block.size_calloc
  filled := fun k hk => absurd hk (Nat.not_lt_zero k)
  rest := fun _ h => absurd h (Nat.lt_irrefl 0)

/-- The list with room for a further fact. -/
theorem Table.grown (h : Table s) : ∃ until_ list,
    (if s.allocatedUntil ≤ s.size then s.allocatedUntil + 20 else s.allocatedUntil) = until_ ∧
    (if s.allocatedUntil ≤ s.size then s.list.realloc (until_ + 1) else s.list) = list ∧
    s.size < until_ ∧ list.size = until_ + 1 ∧ ∀ k : Int, list.read k = s.list.read k := by
  have hlen := h.length
  have hroom := h.room
  by_cases hg : s.allocatedUntil ≤ s.size
  · refine ⟨s.allocatedUntil + 20, s.list.realloc (s.allocatedUntil + 20 + 1), by rw [if_pos hg],
      by rw [if_pos hg], by omega, ?_, fun k => ?_⟩
    · exact Block.size_realloc (by omega)
    · exact Block.read_realloc (by omega)
  · exact ⟨s.allocatedUntil, s.list, by rw [if_neg hg], by rw [if_neg hg], by omega, hlen,
      fun _ => rfl⟩

/-- Fields of a fact other than its clauses are set. -/
theorem clauses_modifyFact (a : Nat) (set : Fact → Fact) {k : Nat} {g : Fact}
    (hset : ∀ f, (set f).clauses = f.clauses) (hg : (s.modifyFact a set).facts[k]? = some g) :
    ∃ f, s.facts[k]? = some f ∧ g.clauses = f.clauses := by
  simp only [Engine.modifyFact, List.getElem?_modify] at hg
  cases hf : s.facts[k]? with
  | none => simp [hf] at hg
  | some f =>
      simp only [hf, Option.map_eq_map, Option.map_some, Option.some.injEq] at hg
      refine ⟨f, rfl, ?_⟩
      rw [← hg]
      split
      · exact hset f
      · rfl

/-- What an insertion leaves as it is, but for the key of the fact. -/
structure SameFacts (s s' : Engine) : Prop where
  length : s'.facts.length = s.facts.length
  clauses : ∀ (k : Nat) (g : Fact), s'.facts[k]? = some g →
    ∃ f, s.facts[k]? = some f ∧ g.clauses = f.clauses

theorem Table.insert (h : Table s) : ∃ s', insertRamFactByKey s.size s = some s' ∧ Table s' ∧
    s'.size = s.size + 1 ∧ SameFacts s s' := by
  obtain ⟨until_, list, hu, hl, hroom, hlen, hread⟩ := h.grown
  obtain ⟨list', hw⟩ := Block.exists_write (b := list) (i := (s.size : Nat)) (a := some s.size)
    (by omega) (by omega)
  let set (f : Fact) : Fact := { f with pk := s.size, rel := 0 }
  let s' : Engine := { s.modifyFact s.size set with
    allocatedUntil := until_, list := list', size := s.size + 1 }
  have hs' : insertRamFactByKey s.size s = some s' := by
    simp only [insertRamFactByKey, hu, hl, hw, Option.bind_eq_bind, Option.bind_some,
      Option.pure_def]
    rfl
  have hsame : SameFacts s s' := {
    length := by simp [s', Engine.modifyFact]
    clauses := fun k g hg => clauses_modifyFact s.size set (fun _ => rfl) hg }
  refine ⟨s', hs', ⟨?_, hroom, (Block.size_write hw).trans hlen, ?_, ?_⟩, rfl, hsame⟩
  · intro h0
    exact absurd h0 (Nat.succ_ne_zero _)
  · intro k hk
    change k < s.size + 1 at hk
    by_cases hks : k = s.size
    · rw [hks]
      exact Block.read_write_self hw
    · exact (Block.read_write_of_ne hw (by omega)).trans ((hread k).trans (h.filled k (by omega)))
  · intro k _ hk
    change s.size + 1 ≤ k at hk
    refine (Block.read_write_of_ne hw (by omega)).trans ((hread k).trans ?_)
    by_cases h0 : s.size = 0
    · rw [(h.start h0).2]
      exact Block.read_of_size_le (by rw [Block.size_calloc]; omega)
    · exact h.rest k (by omega) (by omega)

/-! ## The clauses of the facts -/

/-- The clauses that a fact has. -/
def HasClauses : Option (Block Pointer) → List Nat → Prop
  | none, l => l = []
  | some b, l => Slots b l

/-- The state after the calls of the log. -/
structure Keeps (s : Engine) (log : Log) : Prop where
  table : Table s
  facts : s.facts.length = s.size
  clauses : ∀ (k : Nat) (f : Fact), s.facts[k]? = some f → HasClauses f.clauses (log.clausesAt k)
  inside : ∀ rel c, c ∈ log.clausesAt rel → (0 ≤ rel ∧ rel < s.size) ∧ c < s.size
  nodup : ∀ rel, (log.clausesAt rel).Nodup

theorem keeps_ramBegin : Keeps ramBegin [] where
  table := table_ramBegin
  facts := rfl
  clauses := fun k f h => by simp [ramBegin] at h
  inside := fun rel c h => by simp at h
  nodup := fun _ => List.nodup_nil

theorem Keeps.clausesAt_eq_nil (h : Keeps s log) (hrel : ¬ (0 ≤ rel ∧ rel < s.size)) :
    log.clausesAt rel = [] := by
  apply List.eq_nil_iff_forall_not_mem.mpr
  intro c hc
  exact hrel (h.inside rel c hc).1

/-- A state with the table of `s`, and with a fact behind those of `s`. -/
structure Allocated (s : Engine) (f : Fact) (s' : Engine) : Prop where
  facts : s'.facts = s.facts ++ [f]
  size : s'.size = s.size
  allocatedUntil : s'.allocatedUntil = s.allocatedUntil
  list : s'.list = s.list

theorem Allocated.table (h : Allocated s f s') (ht : Table s) : Table s' := by
  refine ⟨?_, ?_, ?_, ?_, ?_⟩
  · rw [h.size, h.allocatedUntil, h.list]; exact ht.start
  · rw [h.size, h.allocatedUntil]; exact ht.room
  · rw [h.allocatedUntil, h.list]; exact ht.length
  · rw [h.size, h.list]; exact ht.filled
  · rw [h.size, h.list]; exact ht.rest

/-- The next fact gets its key, and there are no clauses with this key. -/
theorem Keeps.store (h : Keeps s log) (hf : f.clauses = none) (ha : Allocated s f s') :
    ∃ t, insertRamFactByKey s.facts.length s' = some t ∧ Keeps t log ∧ t.size = s.size + 1 := by
  obtain ⟨t, ht, htt, hts, hsame⟩ := (ha.table h.table).insert
  rw [ha.size] at ht hts
  have hlen : t.facts.length = s.size + 1 := by rw [hsame.length, ha.facts]; simp [h.facts]
  refine ⟨t, by rw [h.facts]; exact ht, ⟨htt, by rw [hlen, hts], ?_, ?_, h.nodup⟩, hts⟩
  · intro k g hg
    obtain ⟨f', hf', hg'⟩ := hsame.clauses k g hg
    rw [ha.facts] at hf'
    rw [hg']
    by_cases hk : k < s.size
    · rw [List.getElem?_append_left (by rw [h.facts]; exact hk)] at hf'
      exact h.clauses k f' hf'
    · have hk : k = s.facts.length := by
        have := (List.getElem?_eq_some_iff.mp hg).1
        rw [h.facts]
        omega
      rw [hk, List.getElem?_concat_length, Option.some.injEq] at hf'
      rw [h.clausesAt_eq_nil (by omega), ← hf', hf]
      rfl
  · intro rel c hc
    have := h.inside rel c hc
    omega

theorem clausesAt_clause (rel r : Int) (c : Columns) (a : Nat) :
    Log.clausesAt [(.clause rel c, some a)] r = if rel = r then [a] else [] := by
  by_cases h : rel = r <;> simp [Log.clausesAt, h]

theorem HasClauses.slots {p : Option (Block Pointer)} {l : List Nat} (h : HasClauses p l) :
    Slots (p.getD (Block.calloc 21 none)) l := by
  cases p with
  | none =>
      obtain rfl : l = [] := h
      exact slots_calloc
  | some b => exact h

/-- The table gives the fact of each key. -/
theorem Keeps.factAt (h : Keeps s log) (h0 : 0 ≤ rel) (hrel : rel < s.size) :
    ∃ f, s.facts[rel.toNat]? = some f ∧ s.list.read rel = some (some rel.toNat) := by
  have hlt : rel.toNat < s.facts.length := by rw [h.facts]; omega
  have hread := h.table.filled rel.toNat (by omega)
  rw [show ((rel.toNat : Nat) : Int) = rel by omega] at hread
  exact ⟨s.facts[rel.toNat], List.getElem?_eq_getElem hlt, hread⟩

/-- There is nothing to read for any other key, once there is a fact. -/
theorem Keeps.read_eq_none (h : Keeps s log) (hpos : 0 < s.size) (rel : Int)
    (hrel : ¬ (0 ≤ rel ∧ rel < s.size)) : s.list.read rel = none := by
  by_cases h0 : rel < 0
  · exact Block.read_neg h0
  · have hread := h.table.rest rel.toNat hpos (by omega)
    rwa [show ((rel.toNat : Nat) : Int) = rel by omega] at hread

theorem Keeps.insertFactAtKey (h : Keeps s log) (h0 : 0 ≤ rel) (hrel : rel < s.size) (c : Columns)
    {a : Nat} (ha : a < s.size) (hnew : ∀ r, a ∉ log.clausesAt r) :
    ∃ t, insertFactAtKey rel a s = some t ∧ Keeps t (log ++ [(.clause rel c, some a)]) ∧
      t.size = s.size := by
  obtain ⟨f, hf, hread⟩ := h.factAt h0 hrel
  have hslots := (h.clauses rel.toNat f hf).slots
  rw [show ((rel.toNat : Nat) : Int) = rel by omega] at hslots
  obtain ⟨b, hb, hbs⟩ := hslots.push a
  let set (f : Fact) : Fact := { f with rel := rel }
  let t := (s.modifyFact a set).modifyFact rel.toNat fun f => { f with clauses := some b }
  have ht : Ram.insertFactAtKey rel a s = some t := by
    simp only [Ram.insertFactAtKey, Engine.factAt, hread, hf,
      hslots.freePos_eq (Nat.le_refl 20) (by omega), hb, Option.bind_eq_bind, Option.bind_some,
      Option.pure_def]
    rfl
  have hlen : t.facts.length = s.facts.length := by simp [t, Engine.modifyFact]
  have htable : Table t := ⟨h.table.start, h.table.room, h.table.length, h.table.filled,
    h.table.rest⟩
  refine ⟨t, ht, ⟨htable, hlen.trans h.facts, ?_, ?_, ?_⟩, rfl⟩
  · intro k g hg
    rw [clausesAt_append, clausesAt_clause]
    by_cases hk : rel = k
    · rw [if_pos hk, ← hk]
      have hk' : rel.toNat = k := by omega
      simp only [t, Engine.modifyFact, List.getElem?_modify, hk', if_true] at hg
      obtain ⟨g', -, rfl⟩ := Option.map_eq_some_iff.mp hg
      exact hbs
    · rw [if_neg hk, List.append_nil]
      have hg' : (s.modifyFact a set).facts[k]? = some g := by
        have hne : rel.toNat ≠ k := by omega
        simpa [t, Engine.modifyFact, List.getElem?_modify, hne] using hg
      obtain ⟨f', hf', he⟩ := clauses_modifyFact a set (fun _ => rfl) hg'
      rw [he]
      exact h.clauses k f' hf'
  · intro r d hd
    rw [clausesAt_append, clausesAt_clause] at hd
    rcases List.mem_append.mp hd with hd | hd
    · exact h.inside r d hd
    · by_cases hr : rel = r
      · rw [if_pos hr, List.mem_singleton] at hd
        rw [← hr, hd]
        exact ⟨⟨h0, hrel⟩, ha⟩
      · rw [if_neg hr] at hd
        cases hd
  · intro r
    rw [clausesAt_append, clausesAt_clause]
    by_cases hr : rel = r
    · rw [if_pos hr]
      refine List.nodup_append.mpr ⟨h.nodup r, List.pairwise_singleton _ a, ?_⟩
      intro d hd e he
      rw [List.mem_singleton.mp he]
      rintro rfl
      exact hnew r hd
    · rw [if_neg hr, List.append_nil]
      exact h.nodup r

/-! ## Every insertion -/

/-- A call that adds no clause. -/
theorem Keeps.append {i : Insertion} {p : Pointer} (h : Keeps s log)
    (hi : ∀ r, Log.clausesAt [(i, p)] r = []) : Keeps s (log ++ [(i, p)]) := by
  have hlog : ∀ r, Log.clausesAt (log ++ [(i, p)]) r = log.clausesAt r := by
    intro r
    rw [clausesAt_append, hi, List.append_nil]
  refine ⟨h.table, h.facts, ?_, ?_, ?_⟩
  · intro k f hf
    rw [hlog]
    exact h.clauses k f hf
  · intro r c hc
    rw [hlog] at hc
    exact h.inside r c hc
  · intro r
    rw [hlog]
    exact h.nodup r

theorem clausesAt_none (i : Insertion) (r : Int) : Log.clausesAt [(i, none)] r = [] := by
  cases i with
  | fact c onlyLogic => rfl
  | clause rel c => by_cases h : rel = r <;> simp [Log.clausesAt, h]

/-- What an insertion does in a state that keeps the clauses. -/
theorem Keeps.insert (h : Keeps s log) (i : Insertion) (hi : i.IsInserted s.size) :
    ∃ t p, i.insert s = some (t, p) ∧ Keeps t (log ++ [(i, p)]) ∧
      t.size = i.countAfter s.size ∧
      ∀ r, (Log.clausesAt [(i, p)] r).length = if i.addsClauseAt r then 1 else 0 := by
  cases i with
  | fact c onlyLogic =>
      by_cases hr : c.isRejected
      · refine ⟨s, none, by simp [Insertion.insert, ramAddFact, hr], h.append (clausesAt_none _),
          ?_, fun _ => rfl⟩
        simp [Insertion.countAfter, Insertion.isAccepted, Insertion.columns, hr]
      · let f := { c.fact with onlyLogic := onlyLogic }
        let s' := insertFactByListIntoRamNet f.adverbs s.facts.length
          (insertFactByListIntoRamNet f.objects s.facts.length
            (insertFactByListIntoRamNet f.subjects s.facts.length
              { s with facts := s.facts ++ [f] }))
        have ha : Allocated s f s' := ⟨rfl, rfl, rfl, rfl⟩
        obtain ⟨t, ht, hk, hsize⟩ := h.store rfl ha
        refine ⟨t, some s.facts.length, ?_, hk.append fun _ => rfl, ?_, fun _ => rfl⟩
        · simp only [Insertion.insert, ramAddFact, hr, Bool.false_eq_true, if_false]
          rw [show insertRamFactByKey s.facts.length _ = some t from ht]
          rfl
        · simpa [Insertion.countAfter, Insertion.isAccepted, Insertion.columns, hr] using hsize
  | clause rel c =>
      by_cases hr : c.isRejected
      · refine ⟨s, none, by simp [Insertion.insert, ramAddClause, hr], h.append (clausesAt_none _),
          ?_, fun r => ?_⟩
        · simp [Insertion.countAfter, Insertion.isAccepted, Insertion.columns, hr]
        · rw [clausesAt_none]
          simp [Insertion.addsClauseAt, hr]
      · have hrel := hi (by simpa using hr)
        have ha : Allocated s c.fact { s with facts := s.facts ++ [c.fact] } := ⟨rfl, rfl, rfl, rfl⟩
        obtain ⟨t, ht, hk, hsize⟩ := h.store rfl ha
        have hnew : ∀ r, s.facts.length ∉ log.clausesAt r := by
          intro r hm
          have := (h.inside r _ hm).2
          rw [h.facts] at this
          omega
        obtain ⟨u, hu, hku, husize⟩ := hk.insertFactAtKey hrel.1 (by omega) c
          (by rw [h.facts, hsize]; omega) hnew
        refine ⟨u, some s.facts.length, ?_, hku, ?_, fun r => ?_⟩
        · simp only [Insertion.insert, ramAddClause, hr, Bool.false_eq_true, if_false, ht, hu,
            Option.bind_eq_bind, Option.bind_some, Option.pure_def]
        · simpa [Insertion.countAfter, Insertion.isAccepted, Insertion.columns, hr] using
            husize.trans hsize
        · rw [clausesAt_clause]
          by_cases hrr : rel = r <;> simp [Insertion.addsClauseAt, hr, hrr]

/-- A clause of a key that is not given reads a slot that nothing was written to. -/
theorem Keeps.insert_eq_none (h : Keeps s log) {i : Insertion} (hi : ¬ i.IsInserted s.size) :
    i.insert s = none := by
  cases i with
  | fact c onlyLogic => exact absurd trivial hi
  | clause rel c =>
      obtain ⟨hr, hrel⟩ : c.isRejected = false ∧ ¬ (0 ≤ rel ∧ rel ≤ s.size) := by
        simpa [Insertion.IsInserted] using hi
      have ha : Allocated s c.fact { s with facts := s.facts ++ [c.fact] } := ⟨rfl, rfl, rfl, rfl⟩
      obtain ⟨t, ht, hk, hsize⟩ := h.store rfl ha
      have hread := hk.read_eq_none (by omega) rel (by omega)
      simp only [Insertion.insert, ramAddClause, hr, Bool.false_eq_true, if_false, ht,
        Option.bind_eq_bind, Option.bind_some, Ram.insertFactAtKey, Engine.factAt, hread,
        Option.bind_none]

/-! ## Every run -/

theorem Keeps.runFrom {is : List Insertion} (h : Keeps s log) (hi : Insertable s.size is) :
    ∃ t log', runFrom s is = some (t, log') ∧ Keeps t (log ++ log') ∧
      t.size = s.size + is.countP (·.isAccepted) ∧
      ∀ rel, (Log.clausesAt log' rel).length = is.countP (·.addsClauseAt rel) := by
  induction is generalizing s log with
  | nil => exact ⟨s, [], rfl, by simpa using h, rfl, fun _ => rfl⟩
  | cons i is ih =>
      obtain ⟨t, p, ht, hk, hsize, hlog⟩ := h.insert i hi.1
      obtain ⟨u, log', hu, hku, husize, hlen⟩ := ih hk (by rw [hsize]; exact hi.2)
      refine ⟨u, (i, p) :: log', ?_, by simpa using hku, ?_, ?_⟩
      · simp only [Ram.runFrom, ht, hu, Option.bind_eq_bind, Option.bind_some, Option.pure_def]
      · rw [husize, hsize, List.countP_cons]
        by_cases ha : i.isAccepted
        · simp only [Insertion.countAfter, ha, if_true]
          omega
        · simp [Insertion.countAfter, ha]
      · intro rel
        have happ : Log.clausesAt ((i, p) :: log') rel
            = Log.clausesAt [(i, p)] rel ++ Log.clausesAt log' rel :=
          clausesAt_append [(i, p)] log' rel
        rw [happ, List.length_append, hlog, hlen, List.countP_cons, Nat.add_comm]

theorem Keeps.insertable {is : List Insertion} (h : Keeps s log) {r : Engine × Log}
    (hr : Ram.runFrom s is = some r) : Insertable s.size is := by
  induction is generalizing s log r with
  | nil => trivial
  | cons i is ih =>
      by_cases hi : i.IsInserted s.size
      · obtain ⟨t, p, ht, hk, hsize, -⟩ := h.insert i hi
        simp only [Ram.runFrom, ht, Option.bind_eq_bind, Option.bind_some] at hr
        obtain ⟨q, hq, -⟩ := Option.bind_eq_some_iff.mp hr
        exact ⟨hi, hsize ▸ ih hk hq⟩
      · simp [Ram.runFrom, h.insert_eq_none hi] at hr

/-! ## Searching -/

/-- A search with the key of a fact gives its first twenty clauses. -/
theorem Keeps.search_clauses (h : Keeps s log) (h0 : 0 ≤ rel) (hrel : rel < s.size) :
    ∃ found, ramSearchClauses rel s = some found ∧
      HasClauses found ((log.clausesAt rel).take 20) := by
  obtain ⟨f, hf, hread⟩ := h.factAt h0 hrel
  have hcl := h.clauses rel.toNat f hf
  rw [show ((rel.toNat : Nat) : Int) = rel by omega] at hcl
  cases hb : f.clauses with
  | none =>
      rw [hb] at hcl
      have hnil : log.clausesAt rel = [] := hcl
      refine ⟨none, ?_, by rw [hnil]; rfl⟩
      simp [ramSearchClauses, show rel ≤ s.size by omega, hread, hf, hb]
  | some b =>
      rw [hb] at hcl
      obtain ⟨c, hc, hcs⟩ := hcl.copy_eq (Nat.le_refl 20) slots_calloc
      refine ⟨some c, ?_, hcs⟩
      simp [ramSearchClauses, show rel ≤ s.size by omega, hread, hf, hb, hc]

theorem HasClauses.listed_eq {p : Option (Block Pointer)} {l : List Nat} (h : HasClauses p l)
    (hl : l.length ≤ 20) : listed p = l := by
  cases p with
  | none =>
      obtain rfl : l = [] := h
      rfl
  | some b => exact Slots.listed_eq h hl

/-- A search reads a slot that was never filled for a negative key, and for the number of facts as
the key. Else it gives the first twenty clauses. -/
theorem Keeps.search (h : Keeps s log) (rel : Int) :
    if rel < 0 ∨ rel = s.size ∧ 0 < s.size then ramSearchClauses rel s = none
    else ∃ found, ramSearchClauses rel s = some found ∧
      listed found = (log.clausesAt rel).take 20 := by
  by_cases hin : 0 ≤ rel ∧ rel < s.size
  · rw [if_neg (by omega)]
    obtain ⟨found, hfound, hclauses⟩ := h.search_clauses hin.1 hin.2
    exact ⟨found, hfound, hclauses.listed_eq (List.length_take_le 20 _)⟩
  · rw [h.clausesAt_eq_nil hin]
    by_cases hbad : rel < 0 ∨ rel = s.size ∧ 0 < s.size
    · rw [if_pos hbad]
      have hread : s.list.read rel = none := by
        rcases hbad with hneg | ⟨-, hpos⟩
        · exact Block.read_neg hneg
        · exact h.read_eq_none hpos rel hin
      simp [ramSearchClauses, show rel ≤ s.size by omega, hread]
    · rw [if_neg hbad]
      refine ⟨none, ?_, rfl⟩
      by_cases hle : rel ≤ s.size
      · have h0 : s.size = 0 := by omega
        have hread : s.list.read rel = some none := by
          rw [(h.table.start h0).2]
          exact Block.read_calloc (by omega) (by omega)
        simp [ramSearchClauses, hle, hread]
      · simp [ramSearchClauses, hle]

/-- A search is complete exactly when each clause belonged to a fact that was there, at most twenty
clauses belong to this one, and the key is neither negative nor the number of facts. -/
theorem searchComplete_iff (is : List Insertion) (rel : Int) : SearchComplete is rel ↔
    Insertable 0 is ∧ 0 ≤ rel ∧
      (rel = is.countP (·.isAccepted) → is.countP (·.isAccepted) = 0) ∧
      is.countP (·.addsClauseAt rel) ≤ 20 := by
  constructor
  · rintro ⟨s, log, found, hrun, hsearch, hcount⟩
    have hins := keeps_ramBegin.insertable hrun
    obtain ⟨t, log', ht, hk, hsize, hlen⟩ := keeps_ramBegin.runFrom hins
    obtain ⟨rfl, rfl⟩ : t = s ∧ log' = log := by
      have := ht.symm.trans hrun
      simpa using this
    rw [List.nil_append] at hk
    have hspec := hk.search rel
    have hsize : t.size = is.countP (·.isAccepted) := by rw [hsize]; simp [ramBegin]
    by_cases hbad : rel < 0 ∨ rel = t.size ∧ 0 < t.size
    · rw [if_pos hbad, hsearch] at hspec
      cases hspec
    · rw [if_neg hbad] at hspec
      obtain ⟨found', hf, hl⟩ := hspec
      rw [hsearch, Option.some.injEq] at hf
      subst hf
      rw [hl] at hcount
      refine ⟨hins, by omega, fun he => by omega, ?_⟩
      rw [← hlen rel]
      exact (Lib.count_take_eq (hk.nodup rel) 20).mp hcount
  · rintro ⟨hins, h0, hne, hle⟩
    obtain ⟨t, log, ht, hk, hsize, hlen⟩ := keeps_ramBegin.runFrom hins
    rw [List.nil_append] at hk
    have hsize : t.size = is.countP (·.isAccepted) := by rw [hsize]; simp [ramBegin]
    have hspec := hk.search rel
    rw [if_neg (by omega)] at hspec
    obtain ⟨found, hf, hl⟩ := hspec
    refine ⟨t, log, found, ht, hf, ?_⟩
    rw [hl]
    exact (Lib.count_take_eq (hk.nodup rel) 20).mpr (by rw [hlen]; exact hle)

/-- A fact with these subjects and no other texts. -/
def columnsOf (subjects : String) : Columns where
  subjects := subjects.toList
  objects := []
  verbs := []
  adverbs := []
  extra := []
  questionword := []
  filename := []
  line := []
  truth := 1

/-- A first fact, with twenty-one clauses. -/
def manyClauses : List Insertion :=
  .fact (columnsOf "katze") false :: List.replicate 21 (.clause 0 (columnsOf "maus"))

/-- The clauses that were added with the key of the first fact, and those that a search returns. -/
theorem run_manyClauses : (runInsertions manyClauses).map (fun r =>
    (r.2.clausesAt 0, (ramSearchClauses 0 r.1).map listed))
      = some (List.range' 1 21, some (List.range' 1 20)) := by
  decide +kernel

/-- The last clause of the first fact is lost. -/
theorem search_loses_clause : ¬ ∀ is rel, SearchComplete is rel := by
  intro h
  obtain ⟨s, log, found, hrun, hsearch, hcount⟩ := h manyClauses 0
  have hboth := run_manyClauses
  rw [hrun, Option.map_some, hsearch, Option.map_some, Option.some.injEq, Prod.mk.injEq,
    Option.some.injEq] at hboth
  have h21 := hcount 21
  rw [hboth.1, hboth.2] at h21
  revert h21
  decide

end Freehal.Ram
