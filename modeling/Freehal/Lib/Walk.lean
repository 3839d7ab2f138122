import Mathlib.Data.Set.Finite.Basic

/-!
# Walks

A partial step that is taken again and again. Among finitely many places the walk ends exactly when
it never comes to a place twice.
-/

namespace Freehal.Lib

variable {α : Type} {step : α → Option α} {a b : α} {m n : Nat}

/-- The place after `n` steps. -/
def walk (step : α → Option α) : Nat → α → Option α
  | 0, a => some a
  | n + 1, a => (step a).bind (walk step n)

theorem walk_add (m n : Nat) (a : α) : walk step (m + n) a = (walk step m a).bind (walk step n) := by
  induction m generalizing a with
  | zero => rw [Nat.zero_add, walk, Option.bind_some]
  | succ m ih =>
      rw [Nat.succ_add, walk, walk]
      cases step a with
      | none => rfl
      | some b => exact ih b

theorem walk_eq_none_of_le (h : walk step m a = none) (hle : m ≤ n) : walk step n a = none := by
  obtain ⟨k, rfl⟩ := Nat.exists_eq_add_of_le hle
  rw [walk_add, h, Option.bind_none]

theorem walk_mul {k : Nat} (h : walk step k a = some a) (n : Nat) :
    walk step (n * k) a = some a := by
  induction n with
  | zero => rw [Nat.zero_mul, walk]
  | succ n ih => rw [Nat.succ_mul, walk_add, ih, Option.bind_some, h]

/-- No place is come to twice. -/
def NeverRepeats (step : α → Option α) (a : α) : Prop :=
  ∀ m n b, walk step m a = some b → walk step n a = some b → m = n

theorem walk_ne_none_of_repeats (hlt : m < n) (hm : walk step m a = some b)
    (hn : walk step n a = some b) (k : Nat) : walk step k a ≠ none := by
  obtain ⟨d, rfl⟩ := Nat.exists_eq_add_of_lt hlt
  have hloop : walk step (d + 1) b = some b := by
    rw [Nat.add_assoc, walk_add, hm, Option.bind_some] at hn
    exact hn
  intro hk
  have hlong : walk step (m + k * (d + 1)) a = some b := by
    rw [walk_add, hm, Option.bind_some, walk_mul hloop]
  have hle : k ≤ m + k * (d + 1) :=
    (Nat.le_mul_of_pos_right k (Nat.succ_pos d)).trans (Nat.le_add_left _ m)
  rw [walk_eq_none_of_le hk hle] at hlong
  cases hlong

theorem neverRepeats_of_ends (h : walk step n a = none) : NeverRepeats step a := by
  intro i j b hi hj
  rcases Nat.lt_trichotomy i j with hlt | heq | hlt
  · exact absurd h (walk_ne_none_of_repeats hlt hi hj n)
  · exact heq
  · exact absurd h (walk_ne_none_of_repeats hlt hj hi n)

theorem mem_of_walk {s : Set α} (hs : ∀ a b, step a = some b → b ∈ s)
    (h : walk step (n + 1) a = some b) : b ∈ s := by
  rw [walk_add] at h
  obtain ⟨c, -, hstep⟩ := Option.bind_eq_some_iff.mp h
  obtain ⟨d, hd, hb⟩ := Option.bind_eq_some_iff.mp hstep
  cases hb
  exact hs c _ hd

theorem ends_of_neverRepeats {s : Set α} (hfinite : s.Finite)
    (hs : ∀ a b, step a = some b → b ∈ s) (h : NeverRepeats step a) :
    ∃ n, walk step n a = none := by
  by_contra hends
  have hsome : ∀ n, ∃ b, walk step n a = some b := fun n =>
    Option.ne_none_iff_exists'.mp fun hnone => hends ⟨n, hnone⟩
  choose place hplace using hsome
  have hinjective : Function.Injective fun n => place (n + 1) := by
    intro i j hij
    have hi := hplace (i + 1)
    have heq := h (i + 1) (j + 1) _ hi ((hplace (j + 1)).trans (congrArg some hij.symm))
    omega
  exact Set.infinite_of_injective_forall_mem hinjective (fun n => mem_of_walk hs (hplace (n + 1)))
    hfinite

theorem ends_iff_neverRepeats {s : Set α} (hfinite : s.Finite)
    (hs : ∀ a b, step a = some b → b ∈ s) (a : α) :
    (∃ n, walk step n a = none) ↔ NeverRepeats step a :=
  ⟨fun ⟨_, h⟩ => neverRepeats_of_ends h, ends_of_neverRepeats hfinite hs⟩

end Freehal.Lib
