import Freehal.Grammar.StandardGrammar

/-!
# Derivations

What a parse tree of a grammar is, apart from how the reducer finds one.
-/

namespace Freehal.Grammar

/-- `keys` are the keys of a right-hand side that the reducemap holds for `key`. -/
def StandardGrammar.HasRule (g : StandardGrammar) (key : Str) (keys : List Str) : Prop :=
  ∃ m ∈ g.reducemap, ∃ k, ∃ rule ∈ m.get k,
    rule.1.toKey = key ∧ rule.2.map Entity.toKey = keys

/-- Every inner node applies a rule to its children. -/
inductive Derivation (R : Str → List Str → Prop) : Entity → Prop
  | leaf (e : Entity) (h : e.embed = []) : Derivation R e
  | node (e : Entity) (hne : e.embed ≠ []) (hrule : R e.toKey (e.embed.map Entity.toKey))
      (hc : ∀ c ∈ e.embed, Derivation R c) : Derivation R e

/-- The entities differ in their markers alone. -/
def Entity.Marked (e e' : Entity) : Prop := ∃ vs, e' = { e with virt := vs }

variable {R : Str → List Str → Prop}

theorem Derivation.marked {e e' : Entity} (h : Derivation R e) (hm : e.Marked e') :
    Derivation R e' := by
  obtain ⟨vs, rfl⟩ := hm
  cases h with
  | leaf _ h => exact .leaf _ h
  | node _ hne hrule hc => exact .node _ hne hrule hc

/-! ## The leaves of a tree -/

theorem Entity.leaves_of_nil {e : Entity} (h : e.embed = []) : e.leaves = [e] := by
  obtain ⟨d, s, r, v, t, m, o⟩ := e
  obtain rfl : m = [] := h
  simp [Entity.leaves]

theorem Entity.leaves_of_ne {e : Entity} (h : e.embed ≠ []) :
    e.leaves = Entity.leavesList e.embed := by
  obtain ⟨d, s, r, v, t, m, o⟩ := e
  rw [Entity.leaves, if_neg h]

theorem leavesList_append (es fs : List Entity) :
    Entity.leavesList (es ++ fs) = Entity.leavesList es ++ Entity.leavesList fs := by
  induction es with
  | nil => rfl
  | cons e es ih => simp [Entity.leavesList, ih]

theorem yield_append (es fs : List Entity) : yield (es ++ fs) = yield es ++ yield fs := by
  simp [yield, leavesList_append]

theorem yield_cons (e : Entity) (es : List Entity) : yield (e :: es) = yield [e] ++ yield es :=
  yield_append [e] es

theorem yield_leaf {e : Entity} (h : e.embed = []) : yield [e] = [e.token] := by
  simp [yield, Entity.leavesList, Entity.leaves_of_nil h]

theorem yield_node {e : Entity} (h : e.embed ≠ []) : yield [e] = yield e.embed := by
  simp [yield, Entity.leavesList, Entity.leaves_of_ne h]

theorem yield_marked {e e' : Entity} (h : e.Marked e') : yield [e'] = yield [e] := by
  obtain ⟨vs, rfl⟩ := h
  by_cases he : e.embed = []
  · rw [yield_leaf he, yield_leaf (e := { e with virt := vs }) he]
    rfl
  · rw [yield_node he, yield_node (e := { e with virt := vs }) he]

theorem yield_eq_map {es : List Entity} (h : ∀ e ∈ es, e.embed = []) :
    yield es = es.map Entity.token := by
  induction es with
  | nil => rfl
  | cons e es ih =>
      rw [yield_cons, yield_leaf (h e (by simp)), ih fun f hf => h f (by simp [hf])]
      rfl

/-! ## Runs of entities with changed markers -/

theorem map_toKey_marked {es es' : List Entity} (h : List.Forall₂ Entity.Marked es es') :
    es'.map Entity.toKey = es.map Entity.toKey := by
  induction h with
  | nil => rfl
  | cons hm _ ih => obtain ⟨vs, rfl⟩ := hm; rw [List.map_cons, ih]; rfl

theorem yield_forall_marked {es es' : List Entity} (h : List.Forall₂ Entity.Marked es es') :
    yield es' = yield es := by
  induction h with
  | nil => rfl
  | cons hm _ ih => rw [yield_cons, yield_marked hm, ih, ← yield_cons]

theorem derivation_forall_marked {es es' : List Entity} (h : List.Forall₂ Entity.Marked es es')
    (hd : ∀ e ∈ es, Derivation R e) : ∀ e ∈ es', Derivation R e := by
  induction h with
  | nil => simp
  | cons hm _ ih =>
      intro e he
      rcases List.mem_cons.mp he with rfl | he
      · exact (hd _ (by simp)).marked hm
      · exact ih (fun d hd' => hd d (by simp [hd'])) e he

end Freehal.Grammar
