import Mathlib.Data.Finset.Card
import Mathlib.Data.Finset.Filter
import Mathlib.Logic.Relation

/-!
# Replacing the variables of a grammar

The words that a form of variables and letters stands for, and the grammars that come from one
another by replacing variables in the alternatives, in all ways at once.
-/

namespace Freehal.Lib

variable {ν τ : Type}

/-- The alternatives of each variable. -/
abbrev Rules (ν τ : Type) := ν → List (ν ⊕ τ) → Prop

/-- The word of letters that a form is replaced by in `n` steps. -/
inductive Yields (rules : Rules ν τ) : Nat → List (ν ⊕ τ) → List τ → Prop where
  | nil : Yields rules 0 [] []
  | letter {n : Nat} {t : τ} {form : List (ν ⊕ τ)} {word : List τ} :
      Yields rules n form word → Yields rules (n + 1) (.inr t :: form) (t :: word)
  | var {m n : Nat} {v : ν} {alternative form : List (ν ⊕ τ)} {word rest : List τ} :
      rules v alternative → Yields rules m alternative word → Yields rules n form rest →
        Yields rules (m + n + 1) (.inl v :: form) (word ++ rest)

def Words (rules : Rules ν τ) (form : List (ν ⊕ τ)) (word : List τ) : Prop :=
  ∃ n, Yields rules n form word

/-- The words of the alternatives of a variable. -/
def Language (rules : Rules ν τ) (v : ν) (word : List τ) : Prop :=
  ∃ alternative, rules v alternative ∧ Words rules alternative word

section

variable {rules : Rules ν τ} {form rest : List (ν ⊕ τ)} {word : List τ}

theorem Yields.append {m n : Nat} {more : List τ} (h : Yields rules m form word)
    (h' : Yields rules n rest more) : Yields rules (m + n) (form ++ rest) (word ++ more) := by
  induction h with
  | nil => simpa using h'
  | letter _ ih =>
      rw [Nat.add_right_comm]
      exact .letter ih
  | @var m' n' v alternative form word rest' hrule h1 _ _ ih =>
      have := Yields.var hrule h1 ih
      rwa [List.append_assoc, Nat.add_right_comm, Nat.add_assoc m' n' n]

theorem Yields.split {n : Nat} (h : Yields rules n (form ++ rest) word) :
    ∃ m k first second, m + k = n ∧ first ++ second = word ∧ Yields rules m form first ∧
      Yields rules k rest second := by
  induction form generalizing n word with
  | nil => exact ⟨0, n, [], word, Nat.zero_add n, rfl, .nil, h⟩
  | cons x form ih =>
      rw [List.cons_append] at h
      cases h with
      | letter h =>
          obtain ⟨m, k, first, second, rfl, rfl, h1, h2⟩ := ih h
          exact ⟨m + 1, k, _, second, by omega, rfl, .letter h1, h2⟩
      | @var i j v alternative _ head _ hrule h h' =>
          obtain ⟨m, k, first, second, rfl, rfl, h1, h2⟩ := ih h'
          exact ⟨i + m + 1, k, head ++ first, second, by omega, List.append_assoc _ _ _,
            .var hrule h h1, h2⟩

end

/-! ## Marked forms -/

/-- An occurrence that stays or a variable that is replaced. -/
inductive Marked (ν τ : Type) where
  | keep (x : ν ⊕ τ)
  | replace (v : ν)

def Marked.symbol : Marked ν τ → ν ⊕ τ
  | .keep x => x
  | .replace v => .inl v

/-- Every variable that is marked is replaced by one of its alternatives. -/
inductive Expands (rules : Rules ν τ) : List (Marked ν τ) → List (ν ⊕ τ) → Prop where
  | nil : Expands rules [] []
  | keep {x : ν ⊕ τ} {marked : List (Marked ν τ)} {form : List (ν ⊕ τ)} :
      Expands rules marked form → Expands rules (.keep x :: marked) (x :: form)
  | replace {v : ν} {marked : List (Marked ν τ)} {alternative form : List (ν ⊕ τ)} :
      rules v alternative → Expands rules marked form →
        Expands rules (.replace v :: marked) (alternative ++ form)

section

variable {rules : Rules ν τ} {marked : List (Marked ν τ)} {form : List (ν ⊕ τ)} {word : List τ}

theorem expands_keep {x : ν ⊕ τ} : Expands rules [.keep x] form ↔ form = [x] := by
  refine ⟨fun h => ?_, fun h => h ▸ .keep .nil⟩
  cases h with
  | keep h => cases h; rfl

theorem expands_replace {v : ν} : Expands rules [.replace v] form ↔ rules v form := by
  refine ⟨fun h => ?_, fun h => ?_⟩
  · cases h with
    | replace hrule h =>
        cases h
        rwa [List.append_nil]
  · have := Expands.replace h .nil
    rwa [List.append_nil] at this

theorem expands_append {more : List (Marked ν τ)} : Expands rules (marked ++ more) form ↔
    ∃ first second, Expands rules marked first ∧ Expands rules more second ∧
      form = first ++ second := by
  induction marked generalizing form with
  | nil =>
      refine ⟨fun h => ⟨[], form, .nil, h, rfl⟩, ?_⟩
      rintro ⟨first, second, h1, h2, rfl⟩
      cases h1
      exact h2
  | cons x marked ih =>
      refine ⟨fun h => ?_, ?_⟩
      · rw [List.cons_append] at h
        cases h with
        | keep h =>
            obtain ⟨first, second, h1, h2, rfl⟩ := ih.mp h
            exact ⟨_, second, .keep h1, h2, rfl⟩
        | @replace v _ alternative _ hrule h =>
            obtain ⟨first, second, h1, h2, rfl⟩ := ih.mp h
            exact ⟨alternative ++ first, second, .replace hrule h1, h2,
              (List.append_assoc _ _ _).symm⟩
      · rintro ⟨first, second, h1, h2, rfl⟩
        cases h1 with
        | keep h1 => exact .keep (ih.mpr ⟨_, _, h1, h2, rfl⟩)
        | replace hrule h1 =>
            rw [List.append_assoc]
            exact .replace hrule (ih.mpr ⟨_, _, h1, h2, rfl⟩)

/-- What a form stands for is what one of its expansions stands for. -/
theorem Yields.exists_expands {n : Nat} (h : Yields rules n (marked.map Marked.symbol) word) :
    ∃ form m, m ≤ n ∧ Expands rules marked form ∧ Yields rules m form word := by
  induction marked generalizing n word with
  | nil => exact ⟨[], n, Nat.le_refl n, .nil, h⟩
  | cons x marked ih =>
      cases x with
      | keep x =>
          cases h with
          | letter h =>
              obtain ⟨form, m, hm, hexpands, hyields⟩ := ih h
              exact ⟨_, m + 1, by omega, .keep hexpands, .letter hyields⟩
          | @var i j _ _ _ _ _ hrule h h' =>
              obtain ⟨form, m, hm, hexpands, hyields⟩ := ih h'
              exact ⟨_, i + m + 1, by omega, .keep hexpands, .var hrule h hyields⟩
      | replace v =>
          cases h with
          | @var i j _ alternative _ _ _ hrule h h' =>
              obtain ⟨form, m, hm, hexpands, hyields⟩ := ih h'
              exact ⟨alternative ++ form, i + m, by omega, .replace hrule hexpands,
                h.append hyields⟩

theorem Expands.words (h : Expands rules marked form) (hw : Words rules form word) :
    Words rules (marked.map Marked.symbol) word := by
  induction h generalizing word with
  | nil => exact hw
  | @keep x marked form _ ih =>
      obtain ⟨n, hw⟩ := hw
      cases hw with
      | letter hw =>
          obtain ⟨m, hm⟩ := ih ⟨_, hw⟩
          exact ⟨m + 1, .letter hm⟩
      | var hrule h1 hw =>
          obtain ⟨m, hm⟩ := ih ⟨_, hw⟩
          exact ⟨_, .var hrule h1 hm⟩
  | replace hrule _ ih =>
      obtain ⟨n, hw⟩ := hw
      obtain ⟨i, j, first, second, -, rfl, h1, h2⟩ := hw.split
      obtain ⟨m, hm⟩ := ih ⟨_, h2⟩
      exact ⟨_, .var hrule h1 hm⟩

end

/-! ## Expanding a grammar -/

/-- A variable is replaced where there is one. -/
def Progressive (marked : List (Marked ν τ)) : Prop :=
  ∀ v, .inl v ∈ marked.map Marked.symbol → ∃ u, .replace u ∈ marked

/-- Every alternative is replaced by all expansions of one marking of it. -/
structure IsExpansion (rules rules' : Rules ν τ) : Prop where
  sound : ∀ {v form}, rules' v form →
    ∃ marked, Progressive marked ∧ rules v (marked.map Marked.symbol) ∧ Expands rules marked form
  complete : ∀ {v form}, rules v form →
    ∃ marked, marked.map Marked.symbol = form ∧ ∀ {form'}, Expands rules marked form' → rules' v form'

section

variable {rules rules' : Rules ν τ} (h : IsExpansion rules rules')
include h

theorem IsExpansion.words_of_yields {n : Nat} {form : List (ν ⊕ τ)} {word : List τ}
    (hy : Yields rules n form word) : Words rules' form word := by
  induction n using Nat.strong_induction_on generalizing form word with
  | _ n ih =>
      cases hy with
      | nil => exact ⟨0, .nil⟩
      | letter hy =>
          obtain ⟨m, hm⟩ := ih _ (Nat.lt_succ_self _) hy
          exact ⟨m + 1, .letter hm⟩
      | @var i j v alternative form word rest hrule h1 h2 =>
          -- the alternative is expanded with the steps of its derivation
          obtain ⟨marked, rfl, hall⟩ := h.complete hrule
          obtain ⟨expanded, k, hk, hexpands, hy⟩ := h1.exists_expands
          obtain ⟨m, hm⟩ := ih k (by omega) hy
          obtain ⟨m', hm'⟩ := ih j (by omega) h2
          exact ⟨_, .var (hall hexpands) hm hm'⟩

theorem IsExpansion.words_iff {form : List (ν ⊕ τ)} {word : List τ} :
    Words rules' form word ↔ Words rules form word := by
  refine ⟨fun hw => ?_, fun ⟨n, hn⟩ => h.words_of_yields hn⟩
  obtain ⟨n, hn⟩ := hw
  induction hn with
  | nil => exact ⟨0, .nil⟩
  | letter _ ih =>
      obtain ⟨m, hm⟩ := ih
      exact ⟨m + 1, .letter hm⟩
  | var hrule _ _ ih1 ih2 =>
      obtain ⟨marked, -, hrule, hexpands⟩ := h.sound hrule
      obtain ⟨m, hm⟩ := hexpands.words ih1
      obtain ⟨m', hm'⟩ := ih2
      exact ⟨_, .var hrule hm hm'⟩

/-- An expanded grammar has the words of the grammar. -/
theorem IsExpansion.language_iff {v : ν} {word : List τ} :
    Language rules' v word ↔ Language rules v word := by
  refine ⟨fun ⟨form, hrule, hw⟩ => ?_, fun ⟨form, hrule, hw⟩ => ?_⟩
  · obtain ⟨marked, -, hrule, hexpands⟩ := h.sound hrule
    exact ⟨_, hrule, hexpands.words (h.words_iff.mp hw)⟩
  · obtain ⟨marked, rfl, hall⟩ := h.complete hrule
    obtain ⟨n, hn⟩ := hw
    obtain ⟨expanded, k, -, hexpands, hy⟩ := hn.exists_expands
    exact ⟨expanded, hall hexpands, h.words_of_yields hy⟩

end

/-! ## Acyclic grammars -/

def weight (w : ν → Nat) : List (ν ⊕ τ) → Nat
  | [] => 0
  | .inl v :: form => w v + weight w form
  | .inr _ :: form => weight w form

theorem weight_append (w : ν → Nat) (form rest : List (ν ⊕ τ)) :
    weight w (form ++ rest) = weight w form + weight w rest := by
  induction form with
  | nil => simp [weight]
  | cons x form ih =>
      cases x with
      | inl v => simp [weight, ih, Nat.add_assoc]
      | inr t => simp [weight, ih]

theorem weight_le_of_forall {w : ν → Nat} {form : List (ν ⊕ τ)} {b : Nat}
    (h : ∀ v, .inl v ∈ form → w v ≤ b) : weight w form ≤ form.length * b := by
  induction form with
  | nil => simp [weight]
  | cons x form ih =>
      have hrest := ih fun v hv => h v (List.mem_cons_of_mem _ hv)
      rw [List.length_cons, Nat.succ_mul]
      cases x with
      | inl v =>
          have := h v List.mem_cons_self
          simp only [weight]
          omega
      | inr t =>
          simp only [weight]
          omega

theorem le_weight {w : ν → Nat} {form : List (ν ⊕ τ)} {v : ν} (h : .inl v ∈ form) :
    w v ≤ weight w form := by
  induction form with
  | nil => cases h
  | cons x form ih =>
      rcases List.mem_cons.mp h with rfl | h
      · exact Nat.le_add_right _ _
      · have := ih h
        cases x with
        | inl u =>
            simp only [weight]
            omega
        | inr t => exact this

/-- A variable weighs more than each of its alternatives. -/
def Descending (rules : Rules ν τ) (w : ν → Nat) : Prop :=
  ∀ v form, rules v form → weight w form < w v

section

variable {rules rules' : Rules ν τ} {w : ν → Nat}

theorem Expands.weight_le (hw : Descending rules w) {marked : List (Marked ν τ)}
    {form : List (ν ⊕ τ)} (h : Expands rules marked form) :
    weight w form ≤ weight w (marked.map Marked.symbol) ∧
      ((∃ v, .replace v ∈ marked) → weight w form < weight w (marked.map Marked.symbol)) := by
  induction h with
  | nil => simp [weight]
  | @keep x marked form _ ih =>
      have hmem : (∃ v, Marked.replace v ∈ Marked.keep x :: marked) → ∃ v, .replace v ∈ marked := by
        rintro ⟨v, hv⟩
        exact ⟨v, (List.mem_cons.mp hv).resolve_left (by simp)⟩
      cases x with
      | inl v =>
          simp only [List.map_cons, Marked.symbol, weight]
          exact ⟨by omega, fun h => by have := ih.2 (hmem h); omega⟩
      | inr t =>
          simp only [List.map_cons, Marked.symbol, weight]
          exact ⟨ih.1, fun h => ih.2 (hmem h)⟩
  | @replace v marked alternative form hrule _ ih =>
      have := hw v alternative hrule
      simp only [List.map_cons, Marked.symbol, weight, weight_append]
      exact ⟨by omega, fun _ => by omega⟩

theorem IsExpansion.descending (h : IsExpansion rules rules') (hw : Descending rules w) :
    Descending rules' w := by
  intro v form hrule
  obtain ⟨marked, -, hold, hexpands⟩ := h.sound hrule
  exact Nat.lt_of_le_of_lt (hexpands.weight_le hw).1 (hw v _ hold)

/-- Where variables are left, an expansion is lighter. -/
theorem IsExpansion.weight_bound (h : IsExpansion rules rules') (hw : Descending rules w)
    {b : Nat} (hb : ∀ v form, rules v form → weight w form ≤ b + 1) {v : ν}
    {form : List (ν ⊕ τ)} (hrule : rules' v form) : weight w form ≤ b := by
  obtain ⟨marked, hprogress, hold, hexpands⟩ := h.sound hrule
  obtain ⟨hle, hlt⟩ := hexpands.weight_le hw
  have hbound := hb v _ hold
  by_cases hvar : ∃ u, .inl u ∈ marked.map Marked.symbol
  · obtain ⟨u, hu⟩ := hvar
    have := hlt (hprogress u hu)
    omega
  · have hzero := @weight_le_of_forall ν τ w (marked.map Marked.symbol) 0
      fun u hu => absurd ⟨u, hu⟩ hvar
    omega

/-- An alternative of `v` contains `u`. -/
def Refers (rules : Rules ν τ) (v u : ν) : Prop := ∃ form, rules v form ∧ .inl u ∈ form

def Acyclic (rules : Rules ν τ) : Prop := ∀ v, ¬ Relation.TransGen (Refers rules) v v

theorem acyclic_of_rank (rank : ν → Nat) (h : ∀ v u, Refers rules v u → rank u < rank v) :
    Acyclic rules := by
  have hlt : ∀ v u, Relation.TransGen (Refers rules) v u → rank u < rank v := by
    intro v u hvu
    induction hvu with
    | single hvu => exact h _ _ hvu
    | tail _ hlast ih => exact Nat.lt_trans (h _ _ hlast) ih
  exact fun v hv => Nat.lt_irrefl _ (hlt v v hv)

/-- In a finite acyclic grammar a variable is ranked by the number of variables below it. -/
theorem Acyclic.exists_rank (h : Acyclic rules) {vars : Finset ν}
    (hvars : ∀ v u, Refers rules v u → u ∈ vars) :
    ∃ rank : ν → Nat, ∀ v u, Refers rules v u → rank u < rank v := by
  classical
  refine ⟨fun v => (vars.filter (Relation.TransGen (Refers rules) v)).card, fun v u hvu => ?_⟩
  apply Finset.card_lt_card
  rw [Finset.ssubset_iff_of_subset]
  · exact ⟨u, Finset.mem_filter.mpr ⟨hvars v u hvu, .single hvu⟩,
      fun hu => h u (Finset.mem_filter.mp hu).2⟩
  · intro x hx
    obtain ⟨hmem, hux⟩ := Finset.mem_filter.mp hx
    exact Finset.mem_filter.mpr ⟨hmem, .head hvu hux⟩

theorem Acyclic.exists_weight (h : Acyclic rules) {vars : Finset ν} {b : Nat}
    (hvars : ∀ v u, Refers rules v u → u ∈ vars)
    (hb : ∀ v form, rules v form → form.length < b) :
    ∃ w : ν → Nat, (∀ v, 0 < w v) ∧ Descending rules w := by
  obtain ⟨rank, hrank⟩ := h.exists_rank hvars
  refine ⟨fun v => (b + 1) ^ rank v, fun v => Nat.pow_pos (Nat.succ_pos b), ?_⟩
  intro v form hrule
  by_cases hvar : ∃ u, .inl u ∈ form
  · obtain ⟨r, hr⟩ : ∃ r, rank v = r + 1 := by
      obtain ⟨u, hu⟩ := hvar
      exact Nat.exists_eq_add_one_of_ne_zero (Nat.ne_zero_of_lt (hrank v u ⟨form, hrule, hu⟩))
    have hle : weight (fun u => (b + 1) ^ rank u) form ≤ form.length * (b + 1) ^ r := by
      apply weight_le_of_forall
      intro u hu
      have := hrank v u ⟨form, hrule, hu⟩
      exact Nat.pow_le_pow_right (Nat.succ_pos b) (by omega)
    have hlen := hb v form hrule
    calc weight (fun u => (b + 1) ^ rank u) form ≤ form.length * (b + 1) ^ r := hle
      _ < (b + 1) * (b + 1) ^ r :=
        Nat.mul_lt_mul_of_pos_right (by omega) (Nat.pow_pos (Nat.succ_pos b))
      _ = (b + 1) ^ rank v := by rw [hr, Nat.pow_succ, Nat.mul_comm]
  · have hzero := @weight_le_of_forall ν τ (fun u => (b + 1) ^ rank u) form 0
      fun u hu => absurd ⟨u, hu⟩ hvar
    rw [Nat.mul_zero] at hzero
    exact Nat.lt_of_le_of_lt hzero (Nat.pow_pos (Nat.succ_pos b))

end

end Freehal.Lib
