import Mathlib.Data.List.TakeWhile
import Freehal.Grammar.Language

/-!
# What an entity weighs

An entity without a name becomes a marked copy of the symbol that it replaces. It weighs as much as
this copy, so its weight depends on where it stands.
-/

namespace Freehal.Grammar
open Lib

/-! ## Names -/

/-- A key without its order. -/
def nameOf (key : Str) : Str := key.takeWhile (· ≠ '/')

theorem nameOf_toKey {e : Entity} (h : e.Wf) : nameOf e.toKey = e.base := by
  have hbase : ∀ c ∈ e.base, decide (c ≠ '/') = true := by
    intro c hc
    simpa using fun heq : c = '/' => h.base_no_slash (heq ▸ hc)
  unfold nameOf Entity.toKey
  split
  · rw [List.takeWhile_append_of_pos hbase]
    simp
  · exact List.takeWhile_eq_self_iff.mpr hbase

/-- The alternatives of each name, with names for the symbols to be replaced. -/
def namedRules (grammarmap : MultiHashMap Str Entities) : Rules Str Str := fun name f =>
  ∃ key, nameOf key = name ∧ ∃ es ∈ grammarmap.get key,
    es.map (fun e => if e.type = some 'r' then .inl (nameOf e.toKey) else .inr e.toKey) = f

/-! ## Weights -/

section

variable (length : Nat)

/-- The weight of an unmarked symbol with `rank` ranks up to its own, if an entity without a name
weighs `nameless`. -/
def unmarkedWeight : Nat → Nat → Nat
  | 0, _ => 0
  | rank + 1, nameless =>
      let marked := 1 + length * (unmarkedWeight rank nameless + nameless)
      1 + length * (unmarkedWeight rank marked + marked)

/-- The weight of a marked symbol with `rank` ranks below its own. -/
def markedWeight (rank nameless : Nat) : Nat :=
  1 + length * (unmarkedWeight length rank nameless + nameless)

theorem unmarkedWeight_succ (rank nameless : Nat) :
    unmarkedWeight length (rank + 1) nameless
      = markedWeight length rank (markedWeight length rank nameless) := rfl

theorem unmarkedWeight_mono (rank : Nat) {n m : Nat} (h : n ≤ m) :
    unmarkedWeight length rank n ≤ unmarkedWeight length rank m := by
  induction rank generalizing n m with
  | zero => exact Nat.le_refl 0
  | succ rank ih =>
      have hmarked : ∀ {n m : Nat}, n ≤ m →
          markedWeight length rank n ≤ markedWeight length rank m := fun h =>
        Nat.add_le_add_left (Nat.mul_le_mul_left _ (Nat.add_le_add (ih h) h)) 1
      exact hmarked (hmarked h)

theorem markedWeight_mono (rank : Nat) {n m : Nat} (h : n ≤ m) :
    markedWeight length rank n ≤ markedWeight length rank m :=
  Nat.add_le_add_left (Nat.mul_le_mul_left _ (Nat.add_le_add (unmarkedWeight_mono length rank h) h)) 1

variable {length} (hlength : 0 < length)
include hlength

theorem lt_markedWeight (rank nameless : Nat) :
    unmarkedWeight length rank nameless + nameless < markedWeight length rank nameless := by
  have := Nat.le_mul_of_pos_left (unmarkedWeight length rank nameless + nameless) hlength
  unfold markedWeight
  omega

theorem markedWeight_le_unmarked (rank nameless : Nat) :
    markedWeight length rank nameless ≤ unmarkedWeight length (rank + 1) nameless := by
  have := lt_markedWeight hlength rank (markedWeight length rank nameless)
  rw [unmarkedWeight_succ]
  omega

theorem unmarkedWeight_le_succ (rank nameless : Nat) :
    unmarkedWeight length rank nameless ≤ unmarkedWeight length (rank + 1) nameless := by
  have := lt_markedWeight hlength rank nameless
  have := markedWeight_le_unmarked hlength rank nameless
  omega

theorem unmarkedWeight_mono_rank {r s : Nat} (h : r ≤ s) (nameless : Nat) :
    unmarkedWeight length r nameless ≤ unmarkedWeight length s nameless := by
  induction h with
  | refl => exact Nat.le_refl _
  | step _ ih => exact Nat.le_trans ih (unmarkedWeight_le_succ hlength _ nameless)

end

/-! ## The weight of a right-hand side -/

section

variable (length : Nat) (rank : Str → Nat)

def Entity.weight (nameless : Nat) (e : Entity) : Nat :=
  if e.type = some 'r' then
    if e.virt = [] then unmarkedWeight length (rank (nameOf e.toKey) + 1) nameless
    else markedWeight length (rank (nameOf e.toKey)) nameless
  else if e.Bare then nameless
  else 0

def sentenceWeight (nameless : Nat) : Entities → Nat
  | [] => 0
  | e :: es => e.weight length rank nameless + sentenceWeight nameless es

/-- The right-hand sides of a name weigh less than its symbols, wherever those stand. -/
def Descends (grammarmap : MultiHashMap Str Entities) : Prop :=
  ∀ key, ∀ es ∈ grammarmap.get key, ∀ nameless,
    sentenceWeight length rank nameless es < markedWeight length (rank (nameOf key)) nameless

theorem sentenceWeight_append (nameless : Nat) (es ds : Entities) :
    sentenceWeight length rank nameless (es ++ ds)
      = sentenceWeight length rank nameless es + sentenceWeight length rank nameless ds := by
  induction es with
  | nil => simp [sentenceWeight]
  | cons e es ih => simp [sentenceWeight, ih, Nat.add_assoc]

variable {length rank}

theorem Entity.weight_mono {n m : Nat} (h : n ≤ m) (e : Entity) :
    e.weight length rank n ≤ e.weight length rank m := by
  unfold Entity.weight
  split
  · split
    · exact unmarkedWeight_mono length _ h
    · exact markedWeight_mono length _ h
  · split
    · exact h
    · exact Nat.le_refl 0

theorem sentenceWeight_le_of_forall₂ {T : Entity → Entity → Prop} {n m : Nat}
    (hT : ∀ e d, T e d → d.weight length rank n ≤ e.weight length rank m) {es ds : Entities}
    (h : List.Forall₂ T es ds) :
    sentenceWeight length rank n ds ≤ sentenceWeight length rank m es := by
  induction h with
  | nil => exact Nat.le_refl 0
  | cons hed _ ih => exact Nat.add_le_add (hT _ _ hed) ih

theorem sentenceWeight_le_length {n b : Nat} {es : Entities}
    (h : ∀ e ∈ es, e.weight length rank n ≤ b) :
    sentenceWeight length rank n es ≤ es.length * b := by
  induction es with
  | nil => exact Nat.zero_le _
  | cons e es ih =>
      have hhead := h e (by simp)
      have htail := ih fun d hd => h d (by simp [hd])
      rw [sentenceWeight, List.length_cons, Nat.succ_mul]
      omega

variable (hlength : 0 < length)
include hlength

theorem Entity.weight_pos {e : Entity} (hr : e.type = some 'r') (n : Nat) :
    0 < e.weight length rank n := by
  have hmarked := lt_markedWeight hlength (rank (nameOf e.toKey)) n
  have hunmarked := markedWeight_le_unmarked hlength (rank (nameOf e.toKey)) n
  unfold Entity.weight
  rw [if_pos hr]
  split <;> omega

theorem exists_weight_lt {es : Entities} {e : Entity} (he : e ∈ es) (hr : e.type = some 'r')
    (n : Nat) : 0 < sentenceWeight length rank n es := by
  induction es with
  | nil => cases he
  | cons d es ih =>
      rw [sentenceWeight]
      rcases List.mem_cons.mp he with rfl | he
      · have := @Entity.weight_pos length rank hlength e hr n
        omega
      · have := ih he
        omega

end

/-! ## Marking an element -/

theorem Entity.type_eq_none {e : Entity} : e.type = none ↔ e.Bare ∧ e.virt = [] := by
  unfold Entity.type Entity.Bare
  split_ifs <;> simp_all

theorem Entity.Bare.not_r {e : Entity} (h : e.Bare) : e.type ≠ some 'r' := fun hr =>
  (Entity.type_eq_r.mp hr).2.2 h.2.1

/-- Parts that are not `r-` symbols do not make one. -/
theorem Entity.initParts_not_r {ps : List Str} (hps : ∀ p ∈ ps, startsWith "r-" p = false)
    {e d : Entity} (h : e.initParts ps = some d) (hr : e.type ≠ some 'r') : d.type ≠ some 'r' := by
  refine foldlM_induction (P := fun d : Entity => d.type ≠ some 'r') h hr ?_
  intro e p d hp hr hstep
  unfold Entity.initPart at hstep
  split at hstep
  · cases hstep; exact hr
  split at hstep
  · simp only [Option.map_eq_some_iff] at hstep
    obtain ⟨n, -, rfl⟩ := hstep
    rw [ne_eq, Entity.type_eq_r] at hr ⊢
    exact hr
  split at hstep
  · split at hstep
    · rename_i hs
      cases hstep
      intro h
      obtain ⟨-, hnil, -⟩ := Entity.type_eq_r.mp h
      rw [show p = [] from hnil] at hs
      exact absurd hs (by decide)
    split at hstep
    · rename_i hp'
      rw [hps p hp] at hp'
      cases hp'
    split at hstep
    · rename_i hd
      cases hstep
      intro h
      obtain ⟨hnil, -⟩ := Entity.type_eq_r.mp h
      rw [show p = [] from hnil] at hd
      exact absurd hd (by decide)
    · cases hstep
      rw [ne_eq, Entity.type_eq_r] at hr ⊢
      exact hr
  · rw [hps p hp, if_neg Bool.false_ne_true] at hstep
    cases hstep
    rw [ne_eq, Entity.type_eq_r] at hr ⊢
    exact hr

/-- A part never takes the name or the markers of an entity away. -/
theorem Entity.initParts_type {ps : List Str} {e d : Entity} (h : e.initParts ps = some d)
    (ht : e.type ≠ none) : d.type ≠ none := by
  refine foldlM_induction (P := fun d : Entity => d.type ≠ none) h ht ?_
  intro e p d _ ht hstep
  rw [ne_eq, Entity.type_eq_none] at ht ⊢
  unfold Entity.initPart at hstep
  split at hstep
  · cases hstep; exact ht
  rename_i hne
  have hp : p ≠ [] := fun hp => hne (Or.inl hp)
  split at hstep
  · simp only [Option.map_eq_some_iff] at hstep
    obtain ⟨n, -, rfl⟩ := hstep
    exact ht
  split at hstep
  · split at hstep
    · cases hstep; exact fun h => hp h.1.1
    split at hstep
    · cases hstep; exact fun h => hp h.1.2.1
    split at hstep
    · cases hstep; exact fun h => hp h.1.2.2
    · cases hstep; exact fun h => by simp at h
  · rename_i hb
    split at hstep
    · cases hstep; exact ht
    · cases hstep; exact fun h => hb h.1

/-- What becomes of an element of an alternative of `p`. -/
structure Marking (length : Nat) (rank : Str → Nat) (p e d : Entity) : Prop where
  typed : d.type ≠ none
  light : ∀ n, d.weight length rank n ≤ e.weight length rank
    (if p.virt = [] then markedWeight length (rank (nameOf p.toKey)) n else n)

section

variable {length : Nat} {rank : Str → Nat} (hlength : 0 < length) {p e : Entity}
include hlength

/-- With markers, a symbol becomes a marked one and an entity without a name gets no `r-` name. -/
theorem marking_of_marked (hp : p.Sym) (hv : p.virt ≠ []) (ht : e.type ≠ none) :
    ∃ d, e.modify p.getMarker = some d ∧ Marking length rank p e d := by
  obtain ⟨d, hd⟩ := hp.modify_total e
  have hparts := hd
  rw [Entity.modify_getMarker hp.wf hp.plain, if_neg hv] at hparts
  refine ⟨d, hd, Entity.initParts_type hparts ht, fun n => ?_⟩
  rw [if_neg hv]
  by_cases hb : e.Bare
  · have hnr := Entity.initParts_not_r hp.wf.no_repl hparts hb.not_r
    rw [Entity.weight, Entity.weight, if_neg hnr, if_neg hb.not_r, if_pos hb]
    split
    · exact Nat.le_refl n
    · exact Nat.zero_le n
  · rw [Entity.initParts_virt hp.wf.virt hp.wf.no_repl fun h => absurd h hb] at hparts
    obtain rfl := Option.some.inj hparts
    have hr : Entity.type { e with virt := e.virt ++ p.virt } = some 'r' ↔ e.type = some 'r' := by
      rw [Entity.type_eq_r, Entity.type_eq_r]
    unfold Entity.weight
    by_cases htype : e.type = some 'r'
    · rw [if_pos (hr.mpr htype), if_pos htype, if_neg (by simp [hv])]
      split
      · exact markedWeight_le_unmarked hlength _ n
      · exact Nat.le_refl _
    · rw [if_neg fun h => htype (hr.mp h), if_neg htype,
        if_neg (show ¬ Entity.Bare { e with virt := e.virt ++ p.virt } from hb), if_neg hb]

/-- Without markers, a symbol keeps its name and its markers, and an entity without a name gets
the name of what it replaces. -/
theorem marking_of_unmarked (hp : p.Sym) (hr : p.type = some 'r') (hv : p.virt = []) (he : e.Wf)
    (ht : e.type ≠ none) :
    ∃ d, e.modify p.getMarker = some d ∧ Marking length rank p e d := by
  obtain ⟨hdata, hsymbol, hrepl⟩ := Entity.type_eq_r.mp hr
  have hbase : p.base = p.repl := by simp [Entity.base, hdata, hsymbol, hrepl]
  obtain ⟨hpart, hx⟩ : Part p.repl ∧ startsWith "r-" p.repl := by
    rcases hp.wf.key with ⟨hbare, -⟩ | ⟨hr', -⟩ | ⟨-, -, hp, hx⟩ | ⟨-, hr', -⟩
    · exact absurd hbare.2.1 hrepl
    · exact absurd hr' hrepl
    · exact ⟨hp, hx⟩
    · exact absurd hr' hrepl
  obtain ⟨d, hd⟩ := hp.modify_total e
  have hparts := hd
  rw [Entity.modify_getMarker hp.wf hp.plain, if_pos hv, hbase, ← List.singleton_append,
    Entity.initParts_append] at hparts
  have hwf := (Entity.modify_wf he hd).1
  refine ⟨d, hd, ?_⟩
  by_cases hb : e.Bare
  · have hvirt : e.virt ≠ [] := fun h => ht (Entity.type_eq_none.mpr ⟨hb, h⟩)
    have hname : Entity.initPart e p.repl = some { e with repl := p.repl } := by
      have hns : startsWith "s-" p.repl = false := startsWith_excl hx (by decide)
      rw [Entity.initPart, if_neg (not_or_intro hpart.ne_nil hpart.ne_null),
        if_neg (by simp [hpart.not_order]),
        if_pos (show e.symbol = [] ∧ e.repl = [] ∧ e.data = [] from hb), if_neg (by simp [hns]),
        if_pos hx]
    have hfirst : e.initParts [p.repl] = some { e with repl := p.repl } := by
      simp [Entity.initParts, hname]
    rw [hfirst, Option.bind_some, Entity.initParts_order hp.wf] at hparts
    obtain rfl := Option.some.inj hparts
    have htype : Entity.type { e with repl := p.repl, order := if 0 ≤ p.order then p.order else
        e.order } = some 'r' := Entity.type_eq_r.mpr ⟨hb.2.2, hb.1, hrepl⟩
    refine ⟨by rw [htype]; simp, fun n => ?_⟩
    have hn : e.weight length rank (markedWeight length (rank (nameOf p.toKey)) n)
        = markedWeight length (rank (nameOf p.toKey)) n := by
      rw [Entity.weight, if_neg hb.not_r, if_pos hb]
    have hkey : nameOf (Entity.toKey { e with repl := p.repl, order := if 0 ≤ p.order then p.order
        else e.order }) = nameOf p.toKey := by
      rw [nameOf_toKey hwf, nameOf_toKey hp.wf, hbase]
      simp [Entity.base, hb.1, hb.2.2, hrepl]
    rw [if_pos hv, hn, Entity.weight, if_pos htype, if_neg hvirt, hkey]
  · have hfirst : e.initParts [p.repl] = some e := by
      simp [Entity.initParts, Entity.initPart_keyed hb hpart, hx]
    rw [hfirst, Option.bind_some, Entity.initParts_order hp.wf] at hparts
    obtain rfl := Option.some.inj hparts
    have htype : Entity.type { e with order := if 0 ≤ p.order then p.order else e.order }
        = e.type := rfl
    refine ⟨by rw [htype]; exact ht, fun n => ?_⟩
    rw [if_pos hv]
    refine Nat.le_trans (Nat.le_of_eq ?_) (Entity.weight_mono (Nat.le_trans (Nat.le_add_left n _)
      (Nat.le_of_lt (lt_markedWeight hlength (rank (nameOf p.toKey)) n))) e)
    have hkey : nameOf (Entity.toKey { e with order := if 0 ≤ p.order then p.order else e.order })
        = nameOf e.toKey := by
      rw [nameOf_toKey hwf, nameOf_toKey he]
      rfl
    unfold Entity.weight
    rw [htype, hkey]
    rfl

theorem Entity.Sym.marking (hp : p.Sym) (hr : p.type = some 'r') (he : e.Wf) (ht : e.type ≠ none) :
    ∃ d, e.modify p.getMarker = some d ∧ Marking length rank p e d := by
  by_cases hv : p.virt = []
  · exact marking_of_unmarked hlength hp hr hv he ht
  · exact marking_of_marked hlength hp hv ht

end

end Freehal.Grammar
