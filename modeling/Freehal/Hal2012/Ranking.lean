import Freehal.Lib.Multimap
import Freehal.Lib.Run
import Mathlib.Algebra.GroupWithZero.Nat

/-!
# Rankings

A ranking keeps objects in the order of their ranks. The first query copies the ranks, or the
objects, into a vector, and every later one reads that vector.
-/

namespace Freehal.Hal2012

open Freehal.Lib

/-- What `random_shuffle` does to a vector. -/
structure Shuffle (O : Type) where
  shuffle : List O → List O
  perm : ∀ l, (shuffle l).Perm l

/-- Leave the vector as it is. -/
def Shuffle.keep (O : Type) : Shuffle O := ⟨id, List.Perm.refl⟩

structure Ranking (O R : Type) where
  map : Multimap R O
  keys : List R
  values : List O

/-- An `int` that is used as a `size_t`. -/
def toSize (i : Int) : Nat := (i % 18446744073709551616).toNat

/-- A `size_t` that is used as an `int`. -/
def toInt (n : Nat) : Int := Int.bmod n 4294967296

theorem toSize_natCast {i : Nat} (h : i < 2147483648) : toSize i = i := by
  unfold toSize
  omega

theorem toInt_of_lt {n : Nat} (h : n < 2147483648) : toInt n = n := by
  unfold toInt
  rw [Int.bmod_def]
  omega

namespace Ranking

variable {O R : Type} [Inhabited O] [LinearOrder R] [Zero R]

def new : Ranking O R := ⟨[], [], []⟩

omit [Inhabited O] in
/-- Objects whose rank is not positive are left out. -/
def insert (s : Ranking O R) (o : O) (r : R) : Ranking O R :=
  if 0 < r then { s with map := s.map.insert r o } else s

omit [LinearOrder R] [Zero R] in
def get (s : Ranking O R) (i : Int) : O × Ranking O R :=
  let values := if s.values.length = 0 then s.map.map (·.2) else s.values
  (values.getD (toSize i) default, { s with values := values })

omit [Inhabited O] [LinearOrder R] in
def rank (s : Ranking O R) (i : Int) : R × Ranking O R :=
  let keys := if s.keys.length = 0 then s.map.map (·.1) else s.keys
  (keys.getD (toSize i) 0, { s with keys := keys })

omit [Inhabited O] [LinearOrder R] [Zero R] in
def size (s : Ranking O R) : Nat := s.map.length

/-- The loop of `best` over the positions below `n`, from the last one down. -/
def bestFrom (bestrank : R) : Nat → Ranking O R → List O × Ranking O R
  | 0, s => ([], s)
  | i + 1, s =>
      let ranked := s.rank i
      if ranked.1 = bestrank then
        let found := ranked.2.get i
        let rest := bestFrom bestrank i found.2
        (found.1 :: rest.1, rest.2)
      else bestFrom bestrank i ranked.2

/-- The objects at the positions up to `last` whose rank is the one at `last`. -/
def bestTo (last : Int) (s : Ranking O R) : List O × Ranking O R :=
  let bestrank := s.rank last
  bestFrom bestrank.1 (last + 1).toNat bestrank.2

def findBest (s : Ranking O R) : List O × Ranking O R :=
  if 0 < s.size then bestTo (toInt (s.size - 1)) s else ([], s)

def best (shuffle : Shuffle O) (s : Ranking O R) : List O × Ranking O R :=
  (shuffle.shuffle s.findBest.1, s.findBest.2)

/-! ## Runs -/

inductive Op (O R : Type) where
  | insert (o : O) (r : R)
  | get (i : Int)
  | rank (i : Int)
  | best (shuffle : Shuffle O)

inductive Answer (O R : Type) where
  | nothing
  | object (o : O)
  | rank (r : R)
  | objects (os : List O)
  deriving DecidableEq

def step (s : Ranking O R) : Op O R → Ranking O R
  | .insert o r => s.insert o r
  | .get i => (s.get i).2
  | .rank i => (s.rank i).2
  | .best shuffle => (s.best shuffle).2

def answer (s : Ranking O R) : Op O R → Answer O R
  | .insert _ _ => .nothing
  | .get i => .object (s.get i).1
  | .rank i => .rank (s.rank i).1
  | .best shuffle => .objects (s.best shuffle).1

/-- The insertions among the calls. -/
def inserted : List (Op O R) → List (O × R)
  | [] => []
  | .insert o r :: ops => (o, r) :: inserted ops
  | _ :: ops => inserted ops

/-- A ranking into which objects are inserted, and of which nothing has been asked yet. -/
def ofInserted (inserts : List (O × R)) : Ranking O R :=
  inserts.foldl (fun s e => s.insert e.1 e.2) new

/-- The objects of maximal rank among those with a positive rank. -/
def maximal (inserts : List (O × R)) : List O :=
  (inserts.filter fun e => 0 < e.2 ∧ inserts.all fun d => d.2 ≤ e.2).map (·.1)

/-! ## Queries that read the vectors -/

/-- A vector that has been filled is a copy of what the ranking holds now. -/
structure Current (s : Ranking O R) : Prop where
  keys : s.keys = [] ∨ s.keys = s.map.map (·.1)
  values : s.values = [] ∨ s.values = s.map.map (·.2)

def rankIn (m : Multimap R O) (i : Int) : R := (m.map (·.1)).getD (toSize i) 0

def objectIn (m : Multimap R O) (i : Int) : O := (m.map (·.2)).getD (toSize i) default

variable {s : Ranking O R} {m : Multimap R O} {ops : List (Op O R)}

omit [Inhabited O] in
theorem Current.insert_of_empty (hk : s.keys = []) (hv : s.values = []) (o : O) (r : R) :
    (s.insert o r).Current := by
  unfold Ranking.insert
  split
  · exact ⟨Or.inl hk, Or.inl hv⟩
  · exact ⟨Or.inl hk, Or.inl hv⟩

omit [LinearOrder R] [Inhabited O] in
/-- The ranks come from the map, whether the vector is filled now or was before. -/
theorem Current.rank (h : s.Current) (i : Int) :
    (s.rank i).1 = rankIn s.map i ∧ (s.rank i).2.Current := by
  have hkeys : (if s.keys.length = 0 then s.map.map (·.1) else s.keys) = s.map.map (·.1) := by
    split
    · rfl
    · rename_i hne
      exact h.keys.resolve_left fun he => hne (he ▸ rfl)
  unfold Ranking.rank
  dsimp only
  rw [hkeys]
  exact ⟨rfl, Or.inr rfl, h.values⟩

omit [LinearOrder R] [Zero R] in
theorem Current.get (h : s.Current) (i : Int) :
    (s.get i).1 = objectIn s.map i ∧ (s.get i).2.Current := by
  have hvalues : (if s.values.length = 0 then s.map.map (·.2) else s.values) =
      s.map.map (·.2) := by
    split
    · rfl
    · rename_i hne
      exact h.values.resolve_left fun he => hne (he ▸ rfl)
  unfold Ranking.get
  dsimp only
  rw [hvalues]
  exact ⟨rfl, h.keys, Or.inr rfl⟩

omit [LinearOrder R] [Inhabited O] in
@[simp] theorem rank_map (s : Ranking O R) (i : Int) : (s.rank i).2.map = s.map := rfl

omit [LinearOrder R] [Zero R] in
@[simp] theorem get_map (s : Ranking O R) (i : Int) : (s.get i).2.map = s.map := rfl

/-- The objects at the positions below `n` that have this rank, from the last one down. -/
def bestIn (m : Multimap R O) (bestrank : R) : Nat → List O
  | 0 => []
  | i + 1 =>
      if rankIn m i = bestrank then objectIn m i :: bestIn m bestrank i else bestIn m bestrank i

@[simp] theorem bestFrom_map (bestrank : R) (n : Nat) (s : Ranking O R) :
    (bestFrom bestrank n s).2.map = s.map := by
  induction n generalizing s with
  | zero => rfl
  | succ i ih =>
      simp only [bestFrom]
      split
      · rw [ih, get_map, rank_map]
      · rw [ih, rank_map]

theorem Current.bestFrom (h : s.Current) (bestrank : R) (n : Nat) :
    (bestFrom bestrank n s).1 = bestIn s.map bestrank n ∧ (bestFrom bestrank n s).2.Current := by
  induction n generalizing s with
  | zero => exact ⟨rfl, h⟩
  | succ i ih =>
      obtain ⟨hrank, hranked⟩ := h.rank i
      obtain ⟨hget, hfound⟩ := hranked.get i
      simp only [Ranking.bestFrom, bestIn, hrank]
      split
      · obtain ⟨hrest, hcurrent⟩ := ih hfound
        refine ⟨?_, hcurrent⟩
        dsimp only
        rw [hrest, hget, get_map, rank_map]
      · exact ih hranked

theorem Current.bestTo (h : s.Current) (last : Int) :
    (bestTo last s).1 = bestIn s.map (rankIn s.map last) (last + 1).toNat ∧
      (bestTo last s).2.Current := by
  obtain ⟨hrank, hranked⟩ := h.rank last
  unfold Ranking.bestTo
  dsimp only
  rw [hrank]
  exact hranked.bestFrom _ _

omit [Inhabited O] [LinearOrder R] [Zero R] in
theorem size_eq (s : Ranking O R) : s.size = s.map.length := rfl

/-- What `best` finds. -/
def allBest (m : Multimap R O) : List O :=
  if 0 < m.length then
    bestIn m (rankIn m (toInt (m.length - 1))) (toInt (m.length - 1) + 1).toNat
  else []

/-- What a query gives on a map. -/
def answerIn (m : Multimap R O) : Op O R → Answer O R
  | .insert _ _ => .nothing
  | .get i => .object (objectIn m i)
  | .rank i => .rank (rankIn m i)
  | .best shuffle => .objects (shuffle.shuffle (allBest m))

theorem Current.findBest (h : s.Current) :
    s.findBest.1 = allBest s.map ∧ s.findBest.2.Current := by
  rw [Ranking.findBest, allBest, size_eq]
  split
  · exact h.bestTo _
  · exact ⟨rfl, h⟩

theorem Current.answer (h : s.Current) (op : Op O R) : s.answer op = answerIn s.map op := by
  cases op with
  | insert o r => rfl
  | get i => exact congrArg Answer.object (h.get i).1
  | rank i => exact congrArg Answer.rank (h.rank i).1
  | best shuffle => exact congrArg (Answer.objects ∘ shuffle.shuffle) h.findBest.1

@[simp] theorem bestTo_map (last : Int) (s : Ranking O R) : (bestTo last s).2.map = s.map :=
  bestFrom_map _ _ _

@[simp] theorem findBest_map (s : Ranking O R) : s.findBest.2.map = s.map := by
  rw [Ranking.findBest]
  split
  · exact bestTo_map _ _
  · rfl

/-! ## The map and the insertions -/

omit [Inhabited O] in
theorem insert_map (s : Ranking O R) (o : O) (r : R) :
    (s.insert o r).map = if 0 < r then s.map.insert r o else s.map := by
  unfold Ranking.insert
  split <;> rfl

/-- The map after insertions. -/
def placed (m : Multimap R O) (inserts : List (O × R)) : Multimap R O :=
  inserts.foldl (fun m e => if 0 < e.2 then m.insert e.2 e.1 else m) m

theorem run_map (ops : List (Op O R)) (s : Ranking O R) :
    (run step s ops).map = placed s.map (inserted ops) := by
  induction ops generalizing s with
  | nil => rfl
  | cons op ops ih =>
      rw [run_cons, ih]
      cases op with
      | insert o r => rw [step, insert_map]; rfl
      | get i => rw [step, get_map]; rfl
      | rank i => rw [step, rank_map]; rfl
      | best shuffle => exact congrArg (placed · (inserted ops)) (findBest_map s)

omit [Inhabited O] in
theorem ofInserted_eq (inserts : List (O × R)) :
    ofInserted inserts = ⟨placed [] inserts, [], []⟩ := by
  have hfold : ∀ m : Multimap R O, inserts.foldl (fun s e => Ranking.insert s e.1 e.2) ⟨m, [], []⟩ =
      ⟨placed m inserts, [], []⟩ := by
    induction inserts with
    | nil => exact fun m => rfl
    | cons e inserts ih =>
        intro m
        have hone : Ranking.insert ⟨m, [], []⟩ e.1 e.2 =
            (⟨if 0 < e.2 then m.insert e.2 e.1 else m, [], []⟩ : Ranking O R) := by
          unfold Ranking.insert
          split <;> rfl
        rw [List.foldl_cons, hone, ih]
        rfl
  exact hfold []

omit [Inhabited O] in
theorem placed_sorted (h : m.Sorted) (inserts : List (O × R)) : (placed m inserts).Sorted := by
  induction inserts generalizing m with
  | nil => exact h
  | cons e inserts ih =>
      refine ih ?_
      dsimp only
      split
      · exact h.insert _ _
      · exact h

omit [Inhabited O] in
theorem placed_perm (inserts : List (O × R)) :
    (placed m inserts).Perm (m ++ (inserts.filter fun e => 0 < e.2).map Prod.swap) := by
  induction inserts generalizing m with
  | nil => simp [placed]
  | cons e inserts ih =>
      by_cases he : 0 < e.2
      · have hone : placed m (e :: inserts) = placed (m.insert e.2 e.1) inserts := by
          simp [placed, he]
        have hfilter : (e :: inserts).filter (fun e => 0 < e.2) =
            e :: inserts.filter fun e => 0 < e.2 := List.filter_cons_of_pos (by simpa using he)
        rw [hone, hfilter, List.map_cons]
        exact ih.trans (((Multimap.insert_perm m e.2 e.1).append_right _).trans
          List.perm_middle.symm)
      · have hone : placed m (e :: inserts) = placed m inserts := by simp [placed, he]
        have hfilter : (e :: inserts).filter (fun e => 0 < e.2) =
            inserts.filter fun e => 0 < e.2 := List.filter_cons_of_neg (by simpa using he)
        rw [hone, hfilter]
        exact ih

/-! ## The best objects -/

omit [Inhabited O] [LinearOrder R] in
theorem rankIn_natCast {i : Nat} (h : i < 2147483648) (hi : i < m.length) :
    rankIn m i = m[i].1 := by
  simp [rankIn, toSize_natCast h, hi]

omit [LinearOrder R] [Zero R] in
theorem objectIn_natCast {i : Nat} (h : i < 2147483648) (hi : i < m.length) :
    objectIn m i = m[i].2 := by
  simp [objectIn, toSize_natCast h, hi]

theorem bestIn_eq (bestrank : R) {n : Nat} (h : n ≤ 2147483648) (hn : n ≤ m.length) :
    bestIn m bestrank n =
      (((m.take n).filter fun e => e.1 = bestrank).map (·.2)).reverse := by
  induction n with
  | zero => rfl
  | succ i ih =>
      have hi : i < m.length := by omega
      rw [bestIn, rankIn_natCast (by omega) hi, objectIn_natCast (by omega) hi,
        ih (by omega) (by omega), List.take_succ_eq_append_getElem hi, List.filter_append,
        List.map_append, List.reverse_append]
      by_cases he : m[i].1 = bestrank
      · simp [he]
      · simp [he]

/-- The best objects are those of the greatest key. -/
theorem allBest_perm (h : m.Sorted) (hlen : m.length ≤ 2147483648) :
    (allBest m).Perm ((m.filter fun e => m.all fun d => d.1 ≤ e.1).map (·.2)) := by
  unfold allBest
  by_cases hpos : 0 < m.length
  · obtain ⟨i, hi⟩ : ∃ i, i + 1 = m.length := ⟨m.length - 1, by omega⟩
    have hsub : m.length - 1 = i := by omega
    have hto : (toInt i + 1).toNat = m.length := by
      rw [toInt_of_lt (by omega)]
      omega
    rw [if_pos hpos, hsub, hto, toInt_of_lt (by omega), rankIn_natCast (by omega) (by omega),
      bestIn_eq _ hlen le_rfl, List.take_length]
    have hfilter : m.filter (fun e => e.1 = m[i].1) =
        m.filter fun e => m.all fun d => d.1 ≤ e.1 := by
      refine List.filter_congr fun e he => ?_
      rw [Bool.eq_iff_iff, decide_eq_true_iff, List.all_eq_true]
      refine ⟨fun heq d hd => ?_, fun hall => ?_⟩
      · exact decide_eq_true (heq ▸ h.le_last hi hd)
      · exact le_antisymm (h.le_last hi he) (of_decide_eq_true (hall _ (List.getElem_mem _)))
    rw [hfilter]
    exact List.reverse_perm _
  · have hnil : m = [] := List.length_eq_zero_iff.mp (by omega)
    subst hnil
    exact List.Perm.refl _

omit [Inhabited O] in
theorem maximal_perm (inserts : List (O × R)) :
    (((placed [] inserts).filter fun e => (placed [] inserts).all fun d => d.1 ≤ e.1).map
      (·.2)).Perm (maximal inserts) := by
  have hperm : (placed [] inserts).Perm ((inserts.filter fun e => 0 < e.2).map Prod.swap) :=
    placed_perm inserts
  have hall : ∀ e ∈ inserts, 0 < e.2 →
      (((placed [] inserts).all fun d => d.1 ≤ e.2) = true ↔
        (inserts.all fun d => d.2 ≤ e.2) = true) := by
    intro e he hpos
    simp only [List.all_eq_true, decide_eq_true_iff, hperm.mem_iff, List.mem_map,
      List.mem_filter]
    refine ⟨fun h d hd => ?_, ?_⟩
    · by_cases hd0 : 0 < d.2
      · exact h d.swap ⟨d, ⟨hd, hd0⟩, rfl⟩
      · exact (not_lt.mp hd0).trans hpos.le
    · rintro h - ⟨d, ⟨hd, -⟩, rfl⟩
      exact h d hd
  refine ((hperm.filter _).map _).trans ?_
  rw [List.filter_map, List.map_map, List.filter_filter]
  have hfilter : inserts.filter (fun e =>
      ((fun e : R × O => (placed [] inserts).all fun d => d.1 ≤ e.1) ∘ Prod.swap) e &&
        decide (0 < e.2)) =
      inserts.filter fun e => 0 < e.2 ∧ inserts.all fun d => d.2 ≤ e.2 := by
    refine List.filter_congr fun e he => ?_
    rw [Bool.eq_iff_iff, Bool.and_eq_true, decide_eq_true_iff, decide_eq_true_iff, and_comm]
    exact and_congr_right fun hpos => hall e he hpos
  rw [hfilter]
  exact List.Perm.refl _

/-! ## Objects that are inserted before the first query -/

/-- No object with a positive rank comes after a query that has filled a vector, and an `int` can
count the objects. -/
def Op.Early (s : Ranking O R) : Op O R → Prop
  | .insert _ r => 0 < r → s.keys = [] ∧ s.values = [] ∧ s.map.length < 2147483648
  | _ => True

theorem Current.step (h : s.Current) {op : Op O R} (hop : op.Early s) : (s.step op).Current := by
  cases op with
  | insert o r =>
      by_cases hr : 0 < r
      · obtain ⟨hk, hv, -⟩ := hop hr
        exact Current.insert_of_empty hk hv o r
      · rwa [Ranking.step, Ranking.insert, if_neg hr]
  | get i => exact (h.get i).2
  | rank i => exact (h.rank i).2
  | best shuffle => exact h.findBest.2

theorem length_step {op : Op O R} (h : s.map.length ≤ 2147483648) (hop : op.Early s) :
    (s.step op).map.length ≤ 2147483648 := by
  cases op with
  | insert o r =>
      rw [Ranking.step, insert_map]
      split
      · rename_i hr
        have hlen := (Multimap.insert_perm s.map r o).length_eq
        have hbound := (hop hr).2.2
        simp only [List.length_cons] at hlen
        omega
      · exact h
  | get i => exact h
  | rank i => exact h
  | best shuffle => exact (findBest_map s).symm ▸ h

omit [LinearOrder R] [Zero R] [Inhabited O] in
theorem new_current : (new : Ranking O R).Current := ⟨Or.inl rfl, Or.inl rfl⟩

/-- In such a run every query gives what it gives on a ranking into which the objects inserted so
far have just been inserted, and `best` gives the objects of maximal rank. -/
theorem answer_of_early (ops : List (Op O R)) (h : Meets step (fun s op => op.Early s) new ops) :
    (∀ query, answer (run step new ops) query = answer (ofInserted (inserted ops)) query) ∧
      ∀ shuffle, ((run step new ops).best shuffle).1.Perm (maximal (inserted ops)) := by
  have hcurrent : (run step new ops).Current :=
    h.induction new_current fun s op hs hop => hs.step hop
  have hlen : (run step (new : Ranking O R) ops).map.length ≤ 2147483648 :=
    h.induction (I := fun s => s.map.length ≤ 2147483648) (Nat.zero_le _)
      fun s op hs hop => length_step hs hop
  have hmap : (run step (new : Ranking O R) ops).map = placed [] (inserted ops) := run_map ops new
  refine ⟨fun query => ?_, fun shuffle => ?_⟩
  · have hof : (ofInserted (inserted ops)).Current := by
      rw [ofInserted_eq]
      exact ⟨Or.inl rfl, Or.inl rfl⟩
    rw [hcurrent.answer, hof.answer, hmap, ofInserted_eq]
  · have hsorted : (run step (new : Ranking O R) ops).map.Sorted :=
      hmap ▸ placed_sorted List.Pairwise.nil _
    refine (shuffle.perm _).trans ?_
    rw [hcurrent.findBest.1]
    refine (allBest_perm hsorted hlen).trans ?_
    rw [hmap]
    exact maximal_perm _

theorem answer_of_early_inserts :
    answer (run step (new : Ranking Nat Nat) [.insert 7 1, .insert 8 3, .rank 0]) (.get 1) =
      .object 8 := by
  refine ((answer_of_early [.insert 7 1, .insert 8 3, .rank 0] ?_).1 (.get 1)).trans (by decide)
  exact ⟨fun _ => ⟨rfl, rfl, by decide⟩, fun _ => ⟨rfl, rfl, by decide⟩, trivial, trivial⟩

/-- The object 8 comes after the ranks have been asked for: its rank is 0, and the best object is
one that has never been inserted. -/
theorem best_of_late_insert :
    ¬ ((answer (run step (new : Ranking Nat Nat)
          [.insert 7 1, .best (Shuffle.keep Nat), .insert 8 3]) (.rank 1) =
        answer (ofInserted (inserted
          [.insert 7 1, .best (Shuffle.keep Nat), .insert 8 3])) (.rank 1)) ∨
      ((run step (new : Ranking Nat Nat)
          [.insert 7 1, .best (Shuffle.keep Nat), .insert 8 3]).best (Shuffle.keep Nat)).1.Perm
        (maximal (inserted [.insert 7 1, .best (Shuffle.keep Nat), .insert 8 3]))) := by
  decide

end Ranking

end Freehal.Hal2012
