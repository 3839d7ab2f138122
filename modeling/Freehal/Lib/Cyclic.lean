import Mathlib.Data.List.Forall2

/-!
# Searching positions in a circle

A loop over positions that are taken modulo a size, from any position on, until a test succeeds.
The test may fail, and it carries a state.
-/

namespace Freehal.Lib

section

variable {σ : Type}

/-- The result of the loop is whether the test succeeded, and the position behind the last one. -/
def cyclicSearch (test : Nat → σ → Option (Bool × σ)) (size : Nat) :
    Nat → Nat → σ → Option (Bool × Nat × σ)
  | 0, k, s => some (false, k, s)
  | rounds + 1, k, s => do
      let m ← test (k % size) s
      if m.1 then return (true, k + 1, m.2) else cyclicSearch test size rounds (k + 1) m.2

/-- The first position from `k` on that has a property. -/
structure FirstFrom (p : Nat → Prop) (k i : Nat) : Prop where
  le : k ≤ i
  holds : p i
  least : ∀ m, k ≤ m → p m → i ≤ m

variable {test : Nat → σ → Option (Bool × σ)} {size : Nat} {s : σ}

theorem cyclicSearch_now {s' : σ} {k : Nat} (h : test (k % size) s = some (true, s'))
    (rounds : Nat) : cyclicSearch test size (rounds + 1) k s = some (true, k + 1, s') := by
  simp [cyclicSearch, h]

theorem cyclicSearch_returns (htest : ∀ k s, ∃ m, test (k % size) s = some m) (rounds k : Nat) :
    ∃ r, cyclicSearch test size rounds k s = some r := by
  induction rounds generalizing k s with
  | zero => exact ⟨_, rfl⟩
  | succ rounds ih =>
      obtain ⟨m, hm⟩ := htest k s
      simp only [cyclicSearch, hm, Option.bind_eq_bind, Option.bind_some]
      split
      · exact ⟨_, rfl⟩
      · exact ih (k + 1)

/-- What the test preserves is preserved by the search. -/
theorem cyclicSearch_induction {I : σ → Prop} {rounds k : Nat} {r : Bool × Nat × σ}
    (htest : ∀ k s m, I s → test (k % size) s = some m → I m.2) (hs : I s)
    (h : cyclicSearch test size rounds k s = some r) : I r.2.2 := by
  induction rounds generalizing k s with
  | zero =>
      obtain rfl := Option.some.inj h
      exact hs
  | succ rounds ih =>
      obtain ⟨m, hm, h⟩ := Option.bind_eq_some_iff.mp h
      have hnext := htest k s m hs hm
      split at h
      · obtain rfl := Option.some.inj h
        exact hnext
      · exact ih hnext h

variable {found : Nat → Bool}

/-- A test that leaves the state as it is finds the first position. -/
theorem cyclicSearch_window (htest : ∀ k, test (k % size) s = some (found (k % size), s))
    (rounds k : Nat) :
    (∃ i, FirstFrom (fun m => found (m % size) = true) k i ∧ i < k + rounds ∧
        cyclicSearch test size rounds k s = some (true, i + 1, s)) ∨
      ((∀ m, k ≤ m → m < k + rounds → found (m % size) = false) ∧
        cyclicSearch test size rounds k s = some (false, k + rounds, s)) := by
  induction rounds generalizing k with
  | zero => exact Or.inr ⟨fun m hk hm => absurd hk (by omega), rfl⟩
  | succ rounds ih =>
      cases hk : found (k % size) with
      | true =>
          have hnow : test (k % size) s = some (true, s) := by rw [htest, hk]
          exact Or.inl ⟨k, ⟨Nat.le_refl k, hk, fun m hm _ => hm⟩, by omega,
            cyclicSearch_now hnow rounds⟩
      | false =>
          have hnext : cyclicSearch test size (rounds + 1) k s =
              cyclicSearch test size rounds (k + 1) s := by
            simp [cyclicSearch, htest, hk]
          rw [hnext]
          rcases ih (k + 1) with ⟨i, hfirst, hi, hsearch⟩ | ⟨hnone, hsearch⟩
          · refine Or.inl ⟨i, ⟨by have := hfirst.le; omega, hfirst.holds, ?_⟩, by omega, hsearch⟩
            intro m hm hfound
            rcases Nat.eq_or_lt_of_le hm with rfl | hm
            · rw [hk] at hfound
              cases hfound
            · exact hfirst.least m hm hfound
          · refine Or.inr ⟨?_, by rw [hsearch]; congr 3; omega⟩
            intro m hm hlt
            rcases Nat.eq_or_lt_of_le hm with rfl | hm
            · exact hk
            · exact hnone m hm (by omega)

/-- Two rounds less the start see every position, wherever the loop starts. -/
theorem cyclicSearch_full (htest : ∀ j, j < size → test j s = some (found j, s)) {k : Nat}
    (hk : k < size) :
    (∃ i, FirstFrom (fun m => found (m % size) = true) k i ∧
        cyclicSearch test size (size * 2 - k) k s = some (true, i + 1, s)) ∨
      ((∀ j, j < size → found j = false) ∧
        cyclicSearch test size (size * 2 - k) k s = some (false, size * 2, s)) := by
  have hmod : ∀ k, test (k % size) s = some (found (k % size), s) :=
    fun k => htest _ (Nat.mod_lt k (by omega))
  rcases cyclicSearch_window hmod (size * 2 - k) k with ⟨i, hfirst, -, hsearch⟩ | ⟨hnone, hsearch⟩
  · exact Or.inl ⟨i, hfirst, hsearch⟩
  · refine Or.inr ⟨fun j hj => ?_, by rw [hsearch]; congr 3; omega⟩
    have := hnone (size + j) (by omega) (by omega)
    rwa [Nat.add_mod_left, Nat.mod_eq_of_lt hj] at this

end

/-! ## Searching for one object after the other -/

theorem FirstFrom.congr {p q : Nat → Prop} {k i : Nat} (h : FirstFrom p k i)
    (hpq : ∀ m, p m ↔ q m) : FirstFrom q k i :=
  ⟨h.le, (hpq i).mp h.holds, fun m hm hq => h.least m hm ((hpq m).mpr hq)⟩

section

variable {α β : Type}

/-- Each object is searched for in a circle of values, from behind the one before it. The positions
where they are found, and the position behind the last one. -/
inductive CyclicScan (R : α → β → Prop) (ws : List β) : List α → Nat → List Nat → Nat → Prop
  | nil {k : Nat} : CyclicScan R ws [] k [] k
  | cons {a : α} {l : List α} {k i k' : Nat} {ks : List Nat} :
      FirstFrom (fun m => ∃ w, ws[m % ws.length]? = some w ∧ R a w) k i →
        CyclicScan R ws l ((i + 1) % ws.length) ks k' →
          CyclicScan R ws (a :: l) k (i % ws.length :: ks) k'

variable {R : α → β → Prop} {ws : List β}

theorem CyclicScan.split {l₁ l₂ : List α} {k k' : Nat} {ks : List Nat}
    (h : CyclicScan R ws (l₁ ++ l₂) k ks k') :
    ∃ ks₁ ks₂ m, ks = ks₁ ++ ks₂ ∧ CyclicScan R ws l₁ k ks₁ m ∧ CyclicScan R ws l₂ m ks₂ k' := by
  induction l₁ generalizing k ks with
  | nil => exact ⟨[], ks, k, rfl, .nil, h⟩
  | cons a l₁ ih =>
      cases h with
      | cons hfirst h =>
          obtain ⟨ks₁, ks₂, m, rfl, h₁, h₂⟩ := ih h
          exact ⟨_ :: ks₁, ks₂, m, rfl, .cons hfirst h₁, h₂⟩

theorem CyclicScan.length {l : List α} {k k' : Nat} {ks : List Nat}
    (h : CyclicScan R ws l k ks k') : ks.length = l.length := by
  induction h with
  | nil => rfl
  | cons _ _ ih => rw [List.length_cons, List.length_cons, ih]

theorem CyclicScan.lt {l : List α} {k k' : Nat} {ks : List Nat} (h : CyclicScan R ws l k ks k')
    (hk : k < ws.length) : k' < ws.length := by
  induction h with
  | nil => exact hk
  | cons _ _ ih => exact ih (Nat.mod_lt _ (by omega))

/-- The scan is not behind any other way to find the objects one after the other. -/
theorem CyclicScan.ahead {l : List α} {k k' : Nat} {ks : List Nat}
    (h : CyclicScan R ws l k ks k') {x z y : List β} (hfit : List.SublistForall₂ R l z)
    (hws : ws = x ++ z ++ y) (hk : k ≤ x.length) : k' ≤ x.length + z.length := by
  induction hfit generalizing k ks x with
  | nil =>
      cases h
      omega
  | @cons a w l z hR _ ih =>
      cases h with
      | @cons _ _ k i _ ks hfirst h =>
          have hi : i ≤ x.length := by
            apply hfirst.least _ hk
            have hlt : x.length < ws.length := by simp [hws]
            exact ⟨w, by rw [Nat.mod_eq_of_lt hlt, hws]; simp, hR⟩
          have hnext := ih h (x := x ++ [w]) (by simpa using hws) (by
            have := Nat.mod_le (i + 1) ws.length
            simp only [List.length_append, List.length_singleton]
            omega)
          simp only [List.length_append, List.length_singleton] at hnext
          rw [List.length_cons]
          omega
  | @cons_right w l z _ ih =>
      have hnext := ih h (x := x ++ [w]) (by simpa using hws) (by
        simp only [List.length_append, List.length_singleton]
        omega)
      simp only [List.length_append, List.length_singleton] at hnext
      rw [List.length_cons]
      omega

theorem sublistForall₂_mono {l : List α} {z z' : List β} (h : List.SublistForall₂ R l z)
    (hz : z.Sublist z') : List.SublistForall₂ R l z' := by
  rw [List.sublistForall₂_iff] at h ⊢
  obtain ⟨ws, hall, hws⟩ := h
  exact ⟨ws, hall, hws.trans hz⟩

/-- Where the objects can be found with something left, the scan finds them without a wrap. -/
theorem CyclicScan.fits {l : List α} {k k' : Nat} {ks : List Nat}
    (h : CyclicScan R ws l k ks k') {x z y : List β} (hfit : List.SublistForall₂ R l z)
    (hws : ws = x ++ z ++ y) (hy : y ≠ []) (hk : k ≤ x.length) :
    k ≤ k' ∧ List.SublistForall₂ R l ((ws.drop k).take (k' - k)) := by
  induction hfit generalizing k ks x with
  | nil =>
      cases h
      exact ⟨Nat.le_refl _, .nil⟩
  | @cons a w l z hR _ ih =>
      cases h with
      | @cons _ _ k i _ ks hfirst h =>
          have hlen : x.length + z.length + 1 < ws.length := by
            have := List.length_pos_iff.mpr hy
            simp only [hws, List.length_append, List.length_cons]
            omega
          have hi : i ≤ x.length := by
            apply hfirst.least _ hk
            exact ⟨w, by rw [Nat.mod_eq_of_lt (by omega), hws]; simp, hR⟩
          rw [Nat.mod_eq_of_lt (by omega)] at h
          obtain ⟨hle, hrest⟩ := ih h (x := x ++ [w]) (by simpa using hws) (by
            simp only [List.length_append, List.length_singleton]
            omega)
          have hki := hfirst.le
          refine ⟨by omega, ?_⟩
          obtain ⟨v, hv, hRv⟩ := hfirst.holds
          rw [Nat.mod_eq_of_lt (by omega)] at hv
          obtain ⟨hlt, rfl⟩ := List.getElem?_eq_some_iff.mp hv
          -- what is between the start and the place of the first object is left out
          have hseg : (ws.drop i).take (k' - i) = ws[i] :: (ws.drop (i + 1)).take (k' - (i + 1)) := by
            rw [List.drop_eq_getElem_cons hlt, show k' - i = k' - (i + 1) + 1 by omega,
              List.take_succ_cons]
          have hsub : ((ws.drop i).take (k' - i)).Sublist ((ws.drop k).take (k' - k)) := by
            have : (ws.drop i).take (k' - i) = ((ws.drop k).take (k' - k)).drop (i - k) := by
              rw [List.drop_take, List.drop_drop, show k' - k - (i - k) = k' - i by omega,
                show k + (i - k) = i by omega]
            rw [this]
            exact List.drop_sublist _ _
          exact sublistForall₂_mono (hseg ▸ .cons hRv hrest) hsub
  | @cons_right w l z _ ih =>
      exact ih h (x := x ++ [w]) (by simpa using hws) (by
        simp only [List.length_append, List.length_singleton]
        omega)

end

end Freehal.Lib
