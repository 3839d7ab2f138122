import Freehal.Grammar.Lemmas.Grammar

/-!
# Helper symbols after an expansion

Which grammars `expand` leaves without `r-` symbols. A step that is reported complete replaces
each of them once; what the replacements bring along stays.
-/

namespace Freehal.Grammar
open Lib

def Entity.isHelper (e : Entity) : Bool := e.type = some 'r'

/-- Two or more alternatives stand for the symbol. -/
def splits (grammarmap : MultiHashMap Str Entities) (e : Entity) : Bool :=
  e.isHelper && 2 ≤ grammarmap.count e.toKey

/-- No right-hand side is split twice in one step. -/
def StandardGrammar.SplitsOnce (g : StandardGrammar) : Prop :=
  ∀ key value, g.grammarmap.Holds key value → value.countP (splits g.grammarmap) ≤ 1

/-- The left-hand symbol is an `r-` symbol. -/
def isHelperKey (key : Str) : Bool := startsWith "r-" key

def StandardGrammar.NoHelpers (g : StandardGrammar) : Prop :=
  ∀ key value, g.grammarmap.Holds key value → isHelperKey key = false →
    ∀ e ∈ value, e.isHelper = false

/-- What replaces an element of a right-hand side in one step. -/
def Gives (grammarmap : MultiHashMap Str Entities) (toReplace e : Entity) : Prop :=
  if toReplace.isHelper then
    ∃ replacement ∈ grammarmap.get toReplace.toKey, ∃ d ∈ replacement,
      d.modify toReplace.getMarker = some e
  else e = toReplace

/-- No alternative of an `r-` symbol brings along another one, where the left-hand symbol is none
itself. The alternatives have the markers of the symbol they replace. -/
def StandardGrammar.Flat (g : StandardGrammar) : Prop :=
  ∀ key value, g.grammarmap.Holds key value → isHelperKey key = false →
    ∀ toReplace ∈ value, toReplace.isHelper →
      ∀ e, Gives g.grammarmap toReplace e → e.isHelper = false

/-! ## One entry -/

variable {ord : HashOrder} {grammarmap : MultiHashMap Str Entities}

theorem addModified_mem {g g' : StandardGrammar} {it entities out : Entities} {previous : Entity}
    (h : addModified g it entities previous = some (out, g')) (e : Entity) :
    e ∈ out ↔ e ∈ it ∨ ∃ d ∈ entities, d.modify previous.getMarker = some e := by
  induction entities generalizing it g with
  | nil =>
      cases h
      simp
  | cons d entities ih =>
      simp only [addModified, List.foldlM_cons, Option.bind_eq_bind, Option.bind_eq_some_iff,
        Option.some.injEq, StandardGrammar.modifySymbol, Option.map_eq_some_iff] at h
      obtain ⟨_, ⟨_, ⟨d', hd, rfl⟩, rfl⟩, h⟩ := h
      rw [ih (g := g.addEntity d') h]
      simp only [List.mem_append, List.mem_cons, List.not_mem_nil, or_false, exists_eq_or_imp, hd,
        Option.some.injEq, or_assoc, eq_comm (a := e)]

/-- Adding entities to each of several lists. -/
theorem foldlM_addModified_mem {α : Type} {l : List α} (it entities : α → Entities)
    {previous : Entity} {g g' : StandardGrammar} {vs vs' : List Entities}
    (h : l.foldlM (fun (x : List Entities × StandardGrammar) a => do
      let (es, g) ← addModified x.2 (it a) (entities a) previous
      some (x.1 ++ [es], g)) (vs, g) = some (vs', g')) :
    vs'.length = vs.length + l.length ∧ ∀ e, (∃ v ∈ vs', e ∈ v) ↔ (∃ v ∈ vs, e ∈ v) ∨
      ∃ a ∈ l, e ∈ it a ∨ ∃ d ∈ entities a, d.modify previous.getMarker = some e := by
  induction l generalizing vs g with
  | nil =>
      cases h
      simp
  | cons a l ih =>
      simp only [List.foldlM_cons, Option.bind_eq_bind, Option.bind_eq_some_iff,
        Option.some.injEq] at h
      obtain ⟨_, ⟨⟨es, g₁⟩, hes, rfl⟩, h⟩ := h
      obtain ⟨hlength, hmem⟩ := ih h
      refine ⟨by simp [hlength]; omega, ?_⟩
      intro e
      rw [hmem]
      simp only [List.mem_append, List.mem_cons, List.not_mem_nil, or_false, or_and_right,
        exists_or, exists_eq_left, addModified_mem hes, or_assoc]

/-- An entity of one of the right-hand sides so far. -/
def Expansion.Occurs (x : Expansion) (e : Entity) : Prop := ∃ v ∈ x.newvalues, e ∈ v

/-- What one symbol does: the size of `newvalues` says whether there was a split before. -/
structure Expanded (grammarmap : MultiHashMap Str Entities) (x : Expansion) (t : Entity)
    (x' : Expansion) : Prop where
  plain : splits grammarmap t = false →
    x'.newvalues.length = x.newvalues.length ∧ x'.complete = x.complete
  split : splits grammarmap t = true → x.newvalues.length = 1 →
    2 ≤ x'.newvalues.length ∧ x'.complete = x.complete
  again : splits grammarmap t = true → 2 ≤ x.newvalues.length →
    2 ≤ x'.newvalues.length ∧ x'.complete = false
  occurs : x'.complete = true → x.newvalues ≠ [] →
    ∀ e, x'.Occurs e ↔ x.Occurs e ∨ Gives grammarmap t e

theorem splits_eq (ord : HashOrder) {t : Entity} (ht : t.isHelper = true) :
    splits grammarmap t = decide (2 ≤ (ord.enum (grammarmap.get t.toKey)).length) := by
  rw [splits, ht, MultiHashMap.count, (ord.perm _).length_eq]
  rfl

theorem mem_map_append {vs : List Entities} (hne : vs ≠ []) (t e : Entity) :
    (∃ v ∈ vs.map (· ++ [t]), e ∈ v) ↔ (∃ v ∈ vs, e ∈ v) ∨ e = t := by
  obtain ⟨v₀, hv₀⟩ := List.exists_mem_of_ne_nil vs hne
  simp only [List.mem_map, exists_exists_and_eq_and, List.mem_append, List.mem_singleton]
  refine ⟨?_, ?_⟩
  · intro h
    obtain ⟨v, hv, h | h⟩ := h
    · exact Or.inl ⟨v, hv, h⟩
    · exact Or.inr h
  · intro h
    obtain ⟨v, hv, h⟩ | h := h
    · exact ⟨v, hv, Or.inl h⟩
    · exact ⟨v₀, hv₀, Or.inr h⟩

theorem Expanded.append {x : Expansion} {t : Entity} (ht : t.isHelper = false) :
    Expanded grammarmap x t { x with newvalues := x.newvalues.map (· ++ [t]) } := by
  have hs : splits grammarmap t = false := by simp [splits, ht]
  refine ⟨fun _ => by simp, by simp [hs], by simp [hs], ?_⟩
  intro _ hne e
  simp only [Expansion.Occurs, Gives, ht]
  exact mem_map_append hne t e

theorem gives_helper {t e : Entity} (ht : t.isHelper = true) :
    Gives grammarmap t e ↔ ∃ replacement ∈ ord.enum (grammarmap.get t.toKey),
      ∃ d ∈ replacement, d.modify t.getMarker = some e := by
  simp [Gives, ht, ord.mem_enum]

theorem two_le_length {α : Type} {l : List α} (h0 : l = [] → False) (h1 : ∀ a, l = [a] → False) :
    2 ≤ l.length := by
  match l with
  | [] => exact (h0 rfl).elim
  | [a] => exact (h1 a rfl).elim
  | _ :: _ :: _ => simp

theorem expandSymbol_expanded {x x' : Expansion} {t : Entity}
    (h : expandSymbol ord grammarmap x t = some x') : Expanded grammarmap x t x' := by
  unfold expandSymbol at h
  split at h
  · case isTrue ht =>
      have ht : t.isHelper = true := by simpa [Entity.isHelper] using ht
      have hs : splits grammarmap t
          = decide (2 ≤ (ord.enum (grammarmap.get t.toKey)).length) := splits_eq ord ht
      have hgives : ∀ e, Gives grammarmap t e ↔
          ∃ replacement ∈ ord.enum (grammarmap.get t.toKey), ∃ d ∈ replacement,
            d.modify t.getMarker = some e := fun e => gives_helper ht
      split at h
      · case h_1 heq =>
          cases h
          rw [heq] at hs hgives
          refine ⟨fun _ => ⟨rfl, rfl⟩, by simp [hs], by simp [hs], ?_⟩
          intro _ _ e
          simp [hgives]
      · case h_2 replacement heq =>
          simp only [Option.bind_eq_bind, Option.bind_eq_some_iff, Option.some.injEq] at h
          obtain ⟨⟨vs', g⟩, hadd, rfl⟩ := h
          obtain ⟨hlength, hmem⟩ := foldlM_addModified_mem id (fun _ => replacement) hadd
          rw [heq] at hs hgives
          refine ⟨fun _ => ⟨by simpa using hlength, rfl⟩, by simp [hs], by simp [hs], ?_⟩
          intro _ hne e
          obtain ⟨v₀, hv₀⟩ := List.exists_mem_of_ne_nil _ hne
          simp only [Expansion.Occurs, hmem, hgives, List.mem_singleton, exists_eq_left]
          refine ⟨?_, ?_⟩
          · intro h
            obtain ⟨v, hv, -⟩ | ⟨v, hv, he | he⟩ := h
            · cases hv
            · exact Or.inl ⟨v, hv, he⟩
            · exact Or.inr he
          · intro h
            obtain ⟨v, hv, he⟩ | he := h
            · exact Or.inr ⟨v, hv, Or.inl he⟩
            · exact Or.inr ⟨v₀, hv₀, Or.inr he⟩
      · case h_3 it hone hnone hmany =>
          simp only [Option.bind_eq_bind, Option.bind_eq_some_iff, Option.some.injEq] at h
          obtain ⟨⟨vs', g⟩, hadd, rfl⟩ := h
          obtain ⟨hlength, hmem⟩ := foldlM_addModified_mem (fun _ => it) id hadd
          have hcount := two_le_length hnone hmany
          obtain ⟨r₀, hr₀⟩ := List.exists_mem_of_length_pos
            (show 0 < (ord.enum (grammarmap.get t.toKey)).length by omega)
          have hlength : vs'.length = (ord.enum (grammarmap.get t.toKey)).length := by
            simpa using hlength
          refine ⟨by simp [hs, hcount], ?_, ?_, ?_⟩
          · intro _ _
            exact ⟨by simpa [hlength] using hcount, rfl⟩
          · intro _ h2
            simp [hone] at h2
          · intro _ _ e
            simp only [Expansion.Occurs, hmem, hgives, hone, List.mem_singleton, exists_eq_left]
            refine ⟨?_, ?_⟩
            · intro h
              obtain ⟨v, hv, -⟩ | ⟨r, hr, he | he⟩ := h
              · cases hv
              · exact Or.inl he
              · exact Or.inr ⟨r, hr, he⟩
            · intro h
              obtain he | ⟨r, hr, he⟩ := h
              · exact Or.inr ⟨r₀, hr₀, Or.inl he⟩
              · exact Or.inr ⟨r, hr, Or.inr he⟩
      · case h_4 hnone hmany hnot =>
          cases h
          have hcount := two_le_length hnone hmany
          refine ⟨by simp [hs, hcount], ?_, by simp, by simp⟩
          intro _ h1
          obtain ⟨it, hit⟩ := List.length_eq_one_iff.mp h1
          exact absurd hit (hnot it)
  · case isFalse ht =>
      cases h
      exact .append (by simpa [Entity.isHelper] using ht)

/-- The flag says that a right-hand side was split once at most. -/
theorem foldlM_complete {rest : Entities} {x x' : Expansion}
    (h : rest.foldlM (expandSymbol ord grammarmap) x = some x') :
    (x.newvalues.length = 1 →
      (x'.complete = true ↔ x.complete = true ∧ rest.countP (splits grammarmap) ≤ 1)) ∧
    (2 ≤ x.newvalues.length →
      (x'.complete = true ↔ x.complete = true ∧ rest.countP (splits grammarmap) = 0)) := by
  induction rest generalizing x with
  | nil =>
      cases h
      simp
  | cons t rest ih =>
      simp only [List.foldlM_cons, Option.bind_eq_bind, Option.bind_eq_some_iff] at h
      obtain ⟨x₁, hx₁, h⟩ := h
      have hstep := expandSymbol_expanded hx₁
      obtain ⟨ih1, ih2⟩ := ih h
      rw [List.countP_cons]
      by_cases hs : splits grammarmap t = true
      · rw [if_pos hs]
        refine ⟨?_, ?_⟩
        · intro hone
          obtain ⟨hmany, hcomplete⟩ := hstep.split hs hone
          have hle : ∀ n : Nat, n + 1 ≤ 1 ↔ n = 0 := by omega
          rw [ih2 hmany, hcomplete, hle]
        · intro hmany
          obtain ⟨hmany, hcomplete⟩ := hstep.again hs hmany
          rw [ih2 hmany, hcomplete]
          simp
      · rw [if_neg hs, Nat.add_zero]
        obtain ⟨hlength, hcomplete⟩ := hstep.plain (by simpa using hs)
        rw [hlength, hcomplete] at ih1 ih2
        exact ⟨ih1, ih2⟩

theorem foldlM_occurs {rest : Entities} {x x' : Expansion}
    (h : rest.foldlM (expandSymbol ord grammarmap) x = some x') (hc : x'.complete = true)
    (hne : x.newvalues ≠ []) (e : Entity) :
    x'.Occurs e ↔ x.Occurs e ∨ ∃ t ∈ rest, Gives grammarmap t e := by
  induction rest generalizing x with
  | nil =>
      cases h
      simp
  | cons t rest ih =>
      have hall := foldlM_complete h
      simp only [List.foldlM_cons, Option.bind_eq_bind, Option.bind_eq_some_iff] at h
      obtain ⟨x₁, hx₁, h⟩ := h
      have hstep := expandSymbol_expanded hx₁
      have hlength : 1 ≤ x.newvalues.length := List.length_pos_iff.mpr hne
      have hlength₁ : 1 ≤ x₁.newvalues.length := by
        by_cases hs : splits grammarmap t = true
        · by_cases hone : x.newvalues.length = 1
          · have := (hstep.split hs hone).1
            omega
          · have := (hstep.again hs (by omega)).1
            omega
        · have := (hstep.plain (by simpa using hs)).1
          omega
      have hc₁ : x₁.complete = true := by
        have h1 := foldlM_complete h
        by_cases hone : x₁.newvalues.length = 1
        · exact ((h1.1 hone).mp hc).1
        · exact ((h1.2 (by omega)).mp hc).1
      rw [ih h (List.length_pos_iff.mp hlength₁), hstep.occurs hc₁ hne e]
      simp only [List.mem_cons, exists_eq_or_imp, or_assoc]

theorem expandEntry_complete {g : StandardGrammar} {complete : Bool} {oldvalue : Entities}
    {x : Expansion} (h : expandEntry ord grammarmap g complete oldvalue = some x) :
    x.complete = true ↔ complete = true ∧ oldvalue.countP (splits grammarmap) ≤ 1 :=
  (foldlM_complete h).1 rfl

theorem expandEntry_occurs {g : StandardGrammar} {complete : Bool} {oldvalue : Entities}
    {x : Expansion} (h : expandEntry ord grammarmap g complete oldvalue = some x)
    (hc : x.complete = true) (e : Entity) :
    (∃ v ∈ x.newvalues, e ∈ v) ↔ ∃ t ∈ oldvalue, Gives grammarmap t e := by
  have := foldlM_occurs h hc (by simp) e
  simpa [Expansion.Occurs] using this

/-! ## One step -/

variable {g g' : StandardGrammar}

theorem holds_foldl_put (vs : List Entities) (m : MultiHashMap Str Entities) (k key : Str)
    (value : Entities) :
    (vs.foldl (fun m v => MultiHashMap.put m k v) m).Holds key value ↔
      m.Holds key value ∨ (key = k ∧ value ∈ vs) := by
  induction vs generalizing m with
  | nil => simp
  | cons v vs ih =>
      rw [List.foldl_cons, ih, MultiHashMap.holds_put, List.mem_cons, or_assoc, ← and_or_left]

/-- The entries that are left, with the new map so far. -/
theorem foldlM_step {its : List (Str × Entities)} {h h' : StandardGrammar} {c c' : Bool}
    {m m' : MultiHashMap Str Entities}
    (hf : its.foldlM (fun (x : StandardGrammar × Bool × MultiHashMap Str Entities) it => do
      let y ← expandEntry ord grammarmap x.1 x.2.1 it.2
      some (y.grammar, y.complete, y.newvalues.foldl (fun m v => MultiHashMap.put m it.1 v) x.2.2))
      (h, c, m) = some (h', c', m')) :
    (c' = true ↔ c = true ∧ ∀ it ∈ its, it.2.countP (splits grammarmap) ≤ 1) ∧
    (c' = true → ∀ key e, (∃ value, m'.Holds key value ∧ e ∈ value) ↔
      (∃ value, m.Holds key value ∧ e ∈ value) ∨
      ∃ it ∈ its, it.1 = key ∧ ∃ t ∈ it.2, Gives grammarmap t e) := by
  induction its generalizing h c m with
  | nil =>
      cases hf
      simp
  | cons it its ih =>
      simp only [List.foldlM_cons, Option.bind_eq_bind, Option.bind_eq_some_iff,
        Option.some.injEq] at hf
      obtain ⟨_, ⟨y, hy, rfl⟩, hf⟩ := hf
      obtain ⟨ihc, ihe⟩ := ih hf
      have hcomplete := expandEntry_complete hy
      refine ⟨?_, ?_⟩
      · rw [ihc, hcomplete]
        simp only [List.mem_cons, forall_eq_or_imp, and_assoc]
      · intro hc' key e
        have hy' : y.complete = true := (ihc.mp hc').1
        have hentry := expandEntry_occurs hy hy' e
        rw [ihe hc']
        simp only [holds_foldl_put, List.mem_cons, exists_eq_or_imp, ← hentry]
        refine ⟨?_, ?_⟩
        · intro h
          obtain ⟨value, hm | ⟨rfl, hv⟩, he⟩ | h := h
          · exact Or.inl ⟨value, hm, he⟩
          · exact Or.inr (Or.inl ⟨rfl, value, hv, he⟩)
          · exact Or.inr (Or.inr h)
        · intro h
          obtain ⟨value, hm, he⟩ | ⟨rfl, value, hv, he⟩ | h := h
          · exact Or.inl ⟨value, Or.inl hm, he⟩
          · exact Or.inl ⟨value, Or.inr ⟨rfl, hv⟩, he⟩
          · exact Or.inr h

theorem expandStep_complete {complete : Bool} (h : g.expandStep ord = some (g', complete)) :
    complete = true ↔ g.SplitsOnce := by
  simp only [StandardGrammar.expandStep, Option.bind_eq_bind, Option.bind_eq_some_iff,
    Option.some.injEq, Prod.mk.injEq] at h
  obtain ⟨⟨h', c', m'⟩, hf, rfl, rfl⟩ := h
  rw [(foldlM_step hf).1]
  simp only [true_and]
  refine ⟨?_, ?_⟩
  · intro h key value hkey
    exact h (key, value) (MultiHashMap.mem_entrySet.mpr hkey)
  · intro h it hit
    exact h it.1 it.2 (MultiHashMap.mem_entrySet.mp hit)

theorem expandStep_occurs (h : g.expandStep ord = some (g', true)) (key : Str) (e : Entity) :
    (∃ value, g'.grammarmap.Holds key value ∧ e ∈ value) ↔
      ∃ value, g.grammarmap.Holds key value ∧ ∃ t ∈ value, Gives g.grammarmap t e := by
  simp only [StandardGrammar.expandStep, Option.bind_eq_bind, Option.bind_eq_some_iff,
    Option.some.injEq, Prod.mk.injEq] at h
  obtain ⟨⟨h', c', m'⟩, hf, rfl, hc⟩ := h
  rw [(foldlM_step hf).2 hc]
  refine ⟨?_, ?_⟩
  · intro h
    obtain ⟨value, hm, -⟩ | ⟨it, hit, rfl, h⟩ := h
    · obtain ⟨vs, hvs, -⟩ := hm
      cases hvs
    · exact ⟨it.2, MultiHashMap.mem_entrySet.mp hit, h⟩
  · intro h
    obtain ⟨value, hm, h⟩ := h
    exact Or.inr ⟨(key, value), MultiHashMap.mem_entrySet.mpr hm, rfl, h⟩

/-- A complete step leaves no helper symbols exactly if none were brought along. -/
theorem expandStep_noHelpers (h : g.expandStep ord = some (g', true)) :
    g'.NoHelpers ↔ g.Flat := by
  refine ⟨?_, ?_⟩
  · intro hno key value hm hkey t ht _ e he
    obtain ⟨value', hm', he'⟩ := (expandStep_occurs h key e).mpr ⟨value, hm, t, ht, he⟩
    exact hno key value' hm' hkey e he'
  · intro hflat key value hm hkey e he
    obtain ⟨value', hm', t, ht, hgives⟩ := (expandStep_occurs h key e).mp ⟨value, hm, he⟩
    by_cases hhelper : t.isHelper = true
    · exact hflat key value' hm' hkey t ht hhelper e hgives
    · rw [Gives, if_neg hhelper] at hgives
      rw [hgives]
      simpa using hhelper

/-! ## The loop -/

/-- The grammars from which the steps of the loop start. -/
inductive Steps (ord : HashOrder) : StandardGrammar → StandardGrammar → Prop where
  | refl (g : StandardGrammar) : Steps ord g g
  | step {g h k : StandardGrammar} (hs : g.expandStep ord = some (h, false))
      (hk : Steps ord h k) : Steps ord g k

/-- Every helper symbol of a right-hand side has an alternative. -/
def StandardGrammar.Defined (g : StandardGrammar) : Prop :=
  ∀ key value, g.grammarmap.Holds key value → ∀ e ∈ value, e.isHelper →
    g.grammarmap.get e.toKey ≠ []

/-- No helper symbol refers to itself, over however many others. -/
def StandardGrammar.Acyclic (g : StandardGrammar) : Prop :=
  ∃ rank : Str → Nat, ∀ key value, g.grammarmap.Holds key value → isHelperKey key →
    ∀ e ∈ value, e.isHelper → rank e.toKey < rank key

def chainLines : List Str :=
  ["s-all:", "  r-x", "r-x:", "  r-y", "r-y:", "  d-noun"].map String.toList

def chain : StandardGrammar :=
  ((chainLines.foldlM readLine ({}, none)).map Prod.fst).getD {}

example : chain.grammarmap =
    [("s-all".toList, [[⟨[], [], "r-x".toList, [], [], [], -1⟩]]),
      ("r-x".toList, [[⟨[], [], "r-y".toList, [], [], [], -1⟩]]),
      ("r-y".toList, [[⟨"d-noun".toList, [], [], [], [], [], -1⟩]])] := by
  decide +kernel

end Freehal.Grammar
