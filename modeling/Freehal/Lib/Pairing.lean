import Mathlib.Data.List.Nodup
import Mathlib.Data.List.Pairwise

/-!
# Pairs of parts

Every part is to be paired with every other one, and both are cleaned for that. The loop over the
second parts compares with a first part that is cleaned anew for each pair.
-/

namespace Freehal.Lib

variable {α : Type} [DecidableEq α] {clean : α → α} {size : α → Nat}

/-- The pairs with a first part. -/
def rowFrom (clean : α → α) : α → List α → List (α × α)
  | _, [] => []
  | i, j :: parts =>
      if i = j then rowFrom clean i parts
      else (clean i, clean j) :: rowFrom clean (clean i) parts

def cleanPairs (clean : α → α) (parts : List α) : List (α × α) :=
  parts.flatMap fun i => rowFrom clean i parts

theorem mem_cleanPairs {parts : List α} {pair : α × α} :
    pair ∈ cleanPairs clean parts ↔ ∃ p ∈ parts, pair ∈ rowFrom clean p parts :=
  List.mem_flatMap

/-- Every ordered pair of different parts once, and nothing else. -/
def CoversPairs (parts : List α) (pairs : List (α × α)) : Prop :=
  pairs.Nodup ∧ ∀ x y, (x, y) ∈ pairs ↔ x ∈ parts ∧ y ∈ parts ∧ x ≠ y

/-! ## Clean parts -/

theorem rowFrom_of_clean {i : α} (hi : clean i = i) (parts : List α) :
    rowFrom clean i parts = (parts.filter (· ≠ i)).map fun j => (i, clean j) := by
  induction parts with
  | nil => rfl
  | cons j parts ih =>
      rw [rowFrom, hi, ih]
      by_cases hij : i = j
      · simp [hij]
      · simp [hij, Ne.symm hij]

theorem coversPairs_of_rows {parts : List α} (hdistinct : (parts.map clean).Nodup)
    (hrows : ∀ p ∈ parts,
      rowFrom clean p parts = (parts.filter (· ≠ p)).map fun j => (clean p, clean j)) :
    CoversPairs (parts.map clean) (cleanPairs clean parts) := by
  have hinj := List.inj_on_of_nodup_map hdistinct
  rw [cleanPairs, List.flatMap_congr hrows]
  constructor
  · refine List.nodup_flatMap.mpr ⟨fun p _ => ?_, ?_⟩
    · refine List.Nodup.map_on (fun x hx y hy hxy => ?_) (hdistinct.of_map.filter _)
      exact hinj (List.mem_of_mem_filter hx) (List.mem_of_mem_filter hy) (Prod.ext_iff.mp hxy).2
    · refine (List.pairwise_map.mp hdistinct).imp fun hpq x hxp hxq => ?_
      obtain ⟨_, -, rfl⟩ := List.mem_map.mp hxp
      obtain ⟨_, -, heq⟩ := List.mem_map.mp hxq
      exact hpq (Prod.ext_iff.mp heq).1.symm
  · intro x y
    simp only [List.mem_flatMap, List.mem_map, List.mem_filter, decide_eq_true_eq, Prod.mk.injEq]
    constructor
    · rintro ⟨p, hp, q, ⟨hq, hne⟩, rfl, rfl⟩
      exact ⟨⟨p, hp, rfl⟩, ⟨q, hq, rfl⟩, fun heq => hne (hinj hp hq heq).symm⟩
    · rintro ⟨⟨p, hp, rfl⟩, ⟨q, hq, rfl⟩, hne⟩
      exact ⟨p, hp, q, ⟨hq, fun heq => hne (congrArg clean heq.symm)⟩, rfl, rfl⟩

/-- Every part but the first is clean, and the first one is after it has been cleaned once, if that
is done more than once. -/
def Tidy (clean : α → α) (parts : List α) : Prop :=
  (∀ p ∈ parts.tail, clean p = p) ∧
    (parts.length < 3 ∨ ∀ p ∈ parts.head?, clean (clean p) = clean p)

theorem coversPairs_of_tidy {parts : List α} (hdistinct : (parts.map clean).Nodup)
    (h : Tidy clean parts) : CoversPairs (parts.map clean) (cleanPairs clean parts) := by
  refine coversPairs_of_rows hdistinct fun p hp => ?_
  cases parts with
  | nil => cases hp
  | cons p₀ parts =>
      obtain ⟨hne, -⟩ := List.nodup_cons.mp hdistinct.of_map
      rcases List.mem_cons.mp hp with rfl | hp
      · cases parts with
        | nil => simp [rowFrom]
        | cons p₁ parts =>
            have hp₁ : p ≠ p₁ := fun heq => hne (heq ▸ List.mem_cons_self)
            have hrest : rowFrom clean (clean p) parts = parts.map fun j => (clean p, clean j) := by
              cases parts with
              | nil => rfl
              | cons p₂ parts =>
                  have hidem : clean (clean p) = clean p :=
                    (h.2.resolve_left (by simp)) p rfl
                  rw [rowFrom_of_clean hidem, List.filter_eq_self.mpr]
                  intro q hq
                  have hq : q ∈ p₁ :: p₂ :: parts := List.mem_cons_of_mem _ hq
                  rw [decide_eq_true_eq, ← h.1 q hq]
                  intro heq
                  have hmem := List.mem_map_of_mem (f := clean) hq
                  exact (List.nodup_cons.mp hdistinct).1 (heq ▸ hmem)
            rw [rowFrom, if_pos rfl, rowFrom, if_neg hp₁, hrest]
            have hfilter : (p :: p₁ :: parts).filter (· ≠ p) = p₁ :: parts := by
              rw [List.filter_cons_of_neg (by simp), List.filter_eq_self.mpr]
              intro q hq
              rw [decide_eq_true_eq]
              exact fun heq => hne (heq ▸ hq)
            rw [hfilter, List.map_cons]
      · rw [rowFrom_of_clean (h.1 p hp), h.1 p hp]

/-! ## Parts that are not clean -/

section

variable {p₀ p₁ : α} {rest : List α}

theorem mem_unique_row {parts : List α} (h : (cleanPairs clean parts).Nodup) {p q : α}
    {pair : α × α} (hp : p ∈ parts) (hq : q ∈ parts) (hpair : pair ∈ rowFrom clean p parts)
    (hpair' : pair ∈ rowFrom clean q parts) : p = q := by
  have hsymm : Std.Symm (Function.onFun List.Disjoint fun i => rowFrom clean i parts) :=
    ⟨fun _ _ hdisjoint _ hq hp => hdisjoint hp hq⟩
  by_contra hne
  exact (List.nodup_flatMap.mp h).2.forall hp hq hne hpair hpair'

variable (h : CoversPairs ((p₀ :: p₁ :: rest).map clean) (cleanPairs clean (p₀ :: p₁ :: rest)))
  (hdistinct : ((p₀ :: p₁ :: rest).map clean).Nodup)

include h hdistinct

/-- The pair with the second part, whose first part is cleaned twice by then, is meant for another
part. -/
theorem exists_second {q : α} (hq : q ∈ p₁ :: rest) (hne : clean q ≠ p₁) :
    ∃ r ∈ rest, clean r = clean (clean q) ∧
      (clean r, clean p₁) ∈ rowFrom clean q (p₀ :: p₁ :: rest) := by
  obtain ⟨hp₀, -⟩ := List.nodup_cons.mp hdistinct.of_map
  have hq₀ : q ≠ p₀ := fun heq => hp₀ (heq ▸ hq)
  have hrow : (clean (clean q), clean p₁) ∈ rowFrom clean q (p₀ :: p₁ :: rest) := by
    simp [rowFrom, hq₀, hne]
  have hpair := mem_cleanPairs.mpr ⟨q, List.mem_cons_of_mem p₀ hq, hrow⟩
  obtain ⟨hmem, -, hother⟩ := (h.2 _ _).mp hpair
  obtain ⟨r, hr, heq⟩ := List.mem_map.mp hmem
  have hrow : (clean r, clean p₁) ∈ rowFrom clean q (p₀ :: p₁ :: rest) := heq ▸ hrow
  rcases List.mem_cons.mp hr with rfl | hr
  · have hfirst : (clean r, clean p₁) ∈ rowFrom clean r (r :: p₁ :: rest) := by
      have hne : r ≠ p₁ := fun heq => hp₀ (heq ▸ List.mem_cons_self)
      simp [rowFrom, hne]
    exact absurd (mem_unique_row h.1 (List.mem_cons_of_mem r hq) List.mem_cons_self hrow hfirst) hq₀
  · rcases List.mem_cons.mp hr with rfl | hr
    · exact absurd heq.symm hother
    · exact ⟨r, hr, heq, hrow⟩

/-- So the part it is meant for has to stand in for yet another one, and the parts get smaller. -/
theorem no_second (hsize : ∀ p, clean p = p ∨ size (clean p) < size p) {bound : Nat}
    (hbound : ∀ q ∈ rest, size (clean q) ≤ bound → clean q ≠ p₁) {p q : α} (hp : p ∈ p₁ :: rest)
    (hq : q ∈ rest) (hne : p ≠ q)
    (hrow : (clean q, clean p₁) ∈ rowFrom clean p (p₀ :: p₁ :: rest))
    (hle : size (clean q) ≤ bound) : False := by
  induction hn : size (clean q) using Nat.strongRecOn generalizing p q with
  | ind n ih =>
      have hq₁ := List.mem_cons_of_mem p₁ hq
      obtain ⟨r, hr, heq, hrow'⟩ := exists_second h hdistinct hq₁ (hbound q hq hle)
      rcases hsize (clean q) with hclean | hlt
      · rw [heq, hclean] at hrow'
        exact hne (mem_unique_row h.1 (List.mem_cons_of_mem _ hp) (List.mem_cons_of_mem _ hq₁) hrow
          hrow')
      · rw [← heq] at hlt
        refine ih (size (clean r)) (hn ▸ hlt) hq₁ hr ?_ hrow' (by omega) rfl
        rintro rfl
        exact Nat.lt_irrefl _ hlt

theorem second_clean (hsize : ∀ p, clean p = p ∨ size (clean p) < size p) : clean p₁ = p₁ := by
  rcases hsize p₁ with hclean | hlt
  · exact hclean
  · have hne : clean p₁ ≠ p₁ := fun heq => by
      rw [heq] at hlt
      exact Nat.lt_irrefl _ hlt
    obtain ⟨r, hr, heq, hrow⟩ := exists_second h hdistinct List.mem_cons_self hne
    have hp₁ := (List.nodup_cons.mp (List.nodup_cons.mp hdistinct.of_map).2).1
    have hle : size (clean r) ≤ size (clean p₁) := by
      rw [heq]
      rcases hsize (clean p₁) with hclean | hlt
      · exact Nat.le_of_eq (congrArg size hclean)
      · exact Nat.le_of_lt hlt
    have hbound : ∀ q ∈ rest, size (clean q) ≤ size (clean p₁) → clean q ≠ p₁ := by
      intro q _ hq hskip
      rw [hskip] at hq
      exact absurd hq (Nat.not_le.mpr hlt)
    exact (no_second h hdistinct hsize hbound List.mem_cons_self hr (fun heq => hp₁ (heq ▸ hr)) hrow
      hle).elim

theorem clean_twice (hsize : ∀ p, clean p = p ∨ size (clean p) < size p) {q : α} (hq : q ∈ rest) :
    clean (clean q) = clean q := by
  have hp₁ := second_clean h hdistinct hsize
  have hother : ∀ r ∈ rest, clean r ≠ p₁ := fun r hr heq => by
    rw [← hp₁] at heq
    have hmap := (List.nodup_cons.mp (List.nodup_cons.mp hdistinct).2).1
    exact hmap (heq ▸ List.mem_map_of_mem hr)
  have hq₁ := List.mem_cons_of_mem p₁ hq
  obtain ⟨r, hr, heq, hrow⟩ := exists_second h hdistinct hq₁ (hother q hq)
  by_contra hne
  refine no_second h hdistinct hsize (fun r hr _ => hother r hr) hq₁ hr ?_ hrow (Nat.le_refl _)
  rintro rfl
  exact hne heq.symm

/-- Otherwise the part is paired with itself. -/
theorem rest_clean (hsize : ∀ p, clean p = p ∨ size (clean p) < size p) {q : α} (hq : q ∈ rest) :
    clean q = q := by
  by_contra hne
  have hidem := clean_twice h hdistinct hsize hq
  have hrow : (clean q, clean q) ∈ rowFrom clean q (p₀ :: p₁ :: rest) := by
    obtain ⟨hp₀, hdistinct'⟩ := List.nodup_cons.mp hdistinct.of_map
    have hq₀ : q ≠ p₀ := fun heq => hp₀ (heq ▸ List.mem_cons_of_mem p₁ hq)
    have hq₁ : clean q ≠ p₁ := fun heq => by
      rw [← second_clean h hdistinct hsize] at heq
      exact (List.nodup_cons.mp (List.nodup_cons.mp hdistinct).2).1 (heq ▸ List.mem_map_of_mem hq)
    rw [rowFrom, if_neg hq₀, rowFrom, if_neg hq₁, hidem, rowFrom_of_clean hidem]
    have hmem : q ∈ rest.filter (· ≠ clean q) :=
      List.mem_filter.mpr ⟨hq, decide_eq_true (Ne.symm hne)⟩
    exact List.mem_cons_of_mem _ (List.mem_cons_of_mem _ (List.mem_map_of_mem hmem))
  have hpair := mem_cleanPairs.mpr
    ⟨q, List.mem_cons_of_mem p₀ (List.mem_cons_of_mem p₁ hq), hrow⟩
  exact ((h.2 _ _).mp hpair).2.2 rfl

end

/-- Otherwise the pair with the third part is missing. -/
theorem first_clean {p₀ p₁ p₂ : α} {rest : List α}
    (h : CoversPairs ((p₀ :: p₁ :: p₂ :: rest).map clean)
      (cleanPairs clean (p₀ :: p₁ :: p₂ :: rest)))
    (hdistinct : ((p₀ :: p₁ :: p₂ :: rest).map clean).Nodup)
    (hclean : ∀ q ∈ p₁ :: p₂ :: rest, clean q = q) : clean (clean p₀) = clean p₀ := by
  obtain ⟨hp₀, -⟩ := List.nodup_cons.mp hdistinct.of_map
  have hp₂ : p₂ ∈ p₁ :: p₂ :: rest := List.mem_cons_of_mem p₁ List.mem_cons_self
  have hne₁ : p₀ ≠ p₁ := fun heq => hp₀ (heq ▸ List.mem_cons_self)
  have hne₂ : clean p₀ ≠ p₂ := fun heq => by
    rw [← hclean p₂ hp₂] at heq
    exact (List.nodup_cons.mp hdistinct).1 (heq ▸ List.mem_map_of_mem hp₂)
  have hrow : (clean (clean p₀), clean p₂) ∈ rowFrom clean p₀ (p₀ :: p₁ :: p₂ :: rest) := by
    simp [rowFrom, hne₁, hne₂]
  obtain ⟨hmem, -, hother⟩ := (h.2 _ _).mp (mem_cleanPairs.mpr ⟨p₀, List.mem_cons_self, hrow⟩)
  obtain ⟨r, hr, heq⟩ := List.mem_map.mp hmem
  rcases List.mem_cons.mp hr with rfl | hr
  · exact heq.symm
  · have hrow' : (clean r, clean p₂) ∈ rowFrom clean r (p₀ :: p₁ :: p₂ :: rest) := by
      have hne : p₂ ≠ r := fun hr₂ => hother (by rw [← heq, hr₂])
      rw [rowFrom_of_clean (hclean r hr), hclean r hr]
      exact List.mem_map_of_mem (List.mem_filter.mpr
        ⟨List.mem_cons_of_mem p₀ hp₂, decide_eq_true hne⟩)
    rw [← heq] at hrow
    have hsame := mem_unique_row h.1 List.mem_cons_self (List.mem_cons_of_mem p₀ hr) hrow hrow'
    exact absurd (hsame ▸ hr) hp₀

/-- Every pair of different parts is made exactly when the parts are tidy. -/
theorem coversPairs_iff_tidy (hsize : ∀ p, clean p = p ∨ size (clean p) < size p) {parts : List α}
    (hdistinct : (parts.map clean).Nodup) :
    CoversPairs (parts.map clean) (cleanPairs clean parts) ↔ Tidy clean parts := by
  refine ⟨fun h => ?_, coversPairs_of_tidy hdistinct⟩
  match parts with
  | [] => exact ⟨nofun, Or.inl (by simp)⟩
  | [p₀] => exact ⟨nofun, Or.inl (by simp)⟩
  | p₀ :: p₁ :: rest =>
      have hclean : ∀ q ∈ p₁ :: rest, clean q = q := by
        intro q hq
        rcases List.mem_cons.mp hq with rfl | hq
        · exact second_clean h hdistinct hsize
        · exact rest_clean h hdistinct hsize hq
      refine ⟨hclean, ?_⟩
      cases rest with
      | nil => exact Or.inl (by simp)
      | cons p₂ rest =>
          refine Or.inr ?_
          rintro _ ⟨⟩
          exact first_clean h hdistinct hclean

end Freehal.Lib
