import Freehal.Lib.Rewriting
import Freehal.Grammar.Lemmas.Grammar

/-!
# The language of a grammar

Expanding a grammar keeps, for every symbol, the sequences of keys that are left when the `r-`
symbols are replaced by their right-hand sides.
-/

namespace Freehal.Grammar
open Lib

/-! ## Symbols and rules -/

/-- An `r-` symbol stands for its right-hand sides, every other one for its key. -/
def Entity.sym (e : Entity) : Str ⊕ Str :=
  if e.type = some 'r' then .inl e.toKey else .inr e.toKey

theorem Entity.sym_eq_inl {e : Entity} {key : Str} :
    e.sym = .inl key ↔ e.type = some 'r' ∧ e.toKey = key := by
  unfold Entity.sym
  split <;> simp_all

def form (es : Entities) : List (Str ⊕ Str) := es.map Entity.sym

def rules (grammarmap : MultiHashMap Str Entities) : Rules Str Str :=
  fun key f => ∃ es ∈ grammarmap.get key, form es = f

theorem Entity.type_eq_r {e : Entity} :
    e.type = some 'r' ↔ e.data = [] ∧ e.symbol = [] ∧ e.repl ≠ [] := by
  unfold Entity.type
  by_cases hd : e.data = []
  · by_cases hs : e.symbol = []
    · by_cases hr : e.repl = []
      · simp only [hd, hs, hr, ne_eq, not_true_eq_false, if_false, and_false, iff_false]
        split <;> simp
      · simp [hd, hs, hr]
    · simp [hd, hs]
  · simp [hd]

/-- A copy with other markers. -/
def Entity.Copy (e e' : Entity) : Prop := ∃ vs, e' = { e with virt := vs }

theorem Entity.Copy.type_iff {e e' : Entity} (h : e.Copy e') :
    e'.type = some 'r' ↔ e.type = some 'r' := by
  obtain ⟨vs, rfl⟩ := h
  rw [Entity.type_eq_r, Entity.type_eq_r]

theorem Entity.Copy.toKey {e e' : Entity} (h : e.Copy e') : e'.toKey = e.toKey := by
  obtain ⟨vs, rfl⟩ := h
  rfl

theorem Entity.Copy.sym {e e' : Entity} (h : e.Copy e') : e'.sym = e.sym := by
  unfold Entity.sym
  by_cases hr : e.type = some 'r'
  · rw [if_pos hr, if_pos (h.type_iff.mpr hr), h.toKey]
  · rw [if_neg hr, if_neg fun hr' => hr (h.type_iff.mp hr'), h.toKey]

/-- An `r-` symbol that can be replaced. -/
structure Entity.Replaceable (e : Entity) : Prop extends e.Rhs where
  type_eq : e.type = some 'r'
  no_order : e.order < 0

theorem Entity.Replaceable.part {e : Entity} (h : e.Replaceable) :
    e.toKey = e.repl ∧ Part e.repl ∧ startsWith "r-" e.repl := by
  obtain ⟨hd, hs, hr⟩ := Entity.type_eq_r.mp h.type_eq
  have horder : ¬ 0 ≤ e.order := Int.not_le.mpr h.no_order
  have hbase : e.base = e.repl := by simp [Entity.base, hd, hs, hr]
  rw [Entity.toKey, if_neg horder, hbase]
  rcases h.wf.key with ⟨hbare, -⟩ | ⟨hr', -⟩ | ⟨-, -, hp, hx⟩ | ⟨-, hr', -⟩
  · exact absurd hbare.2.1 hr
  · exact absurd hr' hr
  · exact ⟨rfl, hp, hx⟩
  · exact absurd hr' hr

/-- The markers of an `r-` symbol only add markers to a symbol that has a name. -/
theorem Entity.modify_replaceable {e f : Entity} (hb : ¬ e.Bare) (hf : f.Replaceable) :
    ∃ e', e.modify f.getMarker = some e' ∧ e.Copy e' := by
  rw [Entity.modify_getMarker hf.wf hf.plain]
  split
  · have horder : f.orderParts = [] := if_neg (Int.not_le.mpr hf.no_order)
    obtain ⟨hkey, hpart, -⟩ := hf.part
    have hbase : f.base = f.repl := by
      rw [← hkey, Entity.toKey, if_neg (Int.not_le.mpr hf.no_order)]
    rw [horder, hbase, Entity.initParts, List.foldlM_cons, Entity.initPart_keyed hb hpart]
    exact ⟨_, rfl, _, rfl⟩
  · exact ⟨_, Entity.initParts_virt hf.wf.virt hf.wf.no_repl fun h => absurd h hb, _, rfl⟩

/-! ## Adding replacements -/

theorem form_forall_copy {es ds : Entities} (h : List.Forall₂ Entity.Copy es ds) :
    form ds = form es := by
  induction h with
  | nil => rfl
  | cons hcopy _ ih => exact congr_arg₂ List.cons hcopy.sym ih

/-- One list with a copy of the replacement for each element of `l`. -/
theorem foldlM_addModified_spec {α : Type} {l : List α} (it entities : α → Entities)
    {previous : Entity} (hp : previous.Replaceable) (hb : ∀ a ∈ l, ∀ e ∈ entities a, ¬ e.Bare)
    (vs : List Entities) (g : StandardGrammar) :
    ∃ added g', l.foldlM (fun (x : List Entities × StandardGrammar) a => do
        let (es, g) ← addModified x.2 (it a) (entities a) previous
        some (x.1 ++ [es], g)) (vs, g) = some (vs ++ added, g') ∧
      added.map form = l.map (fun a => form (it a) ++ form (entities a)) ∧
      ∀ v ∈ added, ∀ d ∈ v, ∃ a ∈ l, d ∈ it a ∨ ∃ e ∈ entities a, e.Copy d := by
  obtain ⟨added, g', hfold, hadded⟩ := foldlM_addModified_forall₂ it entities
    (fun a ha e he => Entity.modify_replaceable (hb a ha e he) hp) vs g
  refine ⟨added, g', hfold, ?_⟩
  clear hfold hb
  induction hadded with
  | nil => exact ⟨rfl, by simp⟩
  | @cons a v l added hv _ ih =>
      obtain ⟨more, rfl, hmore⟩ := hv
      refine ⟨?_, fun v hv d hd => ?_⟩
      · rw [List.map_cons, List.map_cons, ih.1, ← form_forall_copy hmore]
        simp [form]
      · rcases List.mem_cons.mp hv with rfl | hv
        · refine ⟨a, List.mem_cons_self, (List.mem_append.mp hd).imp_right fun hd => ?_⟩
          obtain ⟨i, hi, rfl⟩ := List.mem_iff_getElem.mp hd
          have hlen := hmore.length_eq
          exact ⟨_, List.getElem_mem (by omega), hmore.get (by omega) hi⟩
        · obtain ⟨b, hbl, hbd⟩ := ih.2 v hv d hd
          exact ⟨b, List.mem_cons_of_mem _ hbl, hbd⟩

/-! ## Expanding an entry -/

/-- What is asked of an element of a right-hand side of `key`. -/
structure ElementOk (grammarmap : MultiHashMap Str Entities) (key : Str) (e : Entity) :
    Prop where
  defined : e.type = some 'r' → grammarmap.get e.toKey ≠ []
  no_order : e.type = some 'r' → e.order < 0
  named : startsWith "r-" key → ¬ e.Bare

section

variable {grammarmap : MultiHashMap Str Entities} {key : Str} {e : Entity}

theorem ElementOk.copy {e' : Entity} (h : ElementOk grammarmap key e) (hc : e.Copy e') :
    ElementOk grammarmap key e' := by
  have htype := hc.type_iff
  have hkey := hc.toKey
  obtain ⟨vs, rfl⟩ := hc
  exact ⟨fun hr => hkey ▸ h.defined (htype.mp hr), fun hr => h.no_order (htype.mp hr), h.named⟩

/-- An element that has a name can stand everywhere. -/
theorem ElementOk.of_named {key' : Str} (h : ElementOk grammarmap key' e)
    (hk : startsWith "r-" key') : ElementOk grammarmap key e :=
  ⟨h.defined, h.no_order, fun _ => h.named hk⟩

/-- All elements of the map are as they should be. -/
def ElementsOk (grammarmap : MultiHashMap Str Entities) : Prop :=
  ∀ key, ∀ es ∈ grammarmap.get key, ∀ e ∈ es, ElementOk grammarmap key e

/-- The lists of `newvalues` are the expansions of the part of the entry that was read. -/
structure Expansion.Spec (grammarmap : MultiHashMap Str Entities) (key : Str) (complete : Bool)
    (read : Entities) (x : Expansion) : Prop where
  marked : ∃ marked, marked.map Marked.symbol = form read ∧ Progressive marked ∧
    (x.newvalues.length = 1 ∨ ∃ v, .replace v ∈ marked) ∧
    ∀ f, Expands (rules grammarmap) marked f ↔ f ∈ x.newvalues.map form
  nonempty : x.newvalues ≠ []
  elements : ∀ v ∈ x.newvalues, ∀ d ∈ v, ElementOk grammarmap key d
  flag : (∀ d ∈ read, d.type ≠ some 'r') → x.complete = complete

variable {complete : Bool} {read : Entities} {x : Expansion}

theorem form_append (es ds : Entities) : form (es ++ ds) = form es ++ form ds := List.map_append

/-- The element stays where it is. -/
theorem Expansion.Spec.keep (hx : x.Spec grammarmap key complete read)
    (he : ElementOk grammarmap key e) {flag : Bool}
    (hlen : e.type = some 'r' → x.newvalues.length ≠ 1)
    (hflag : e.type ≠ some 'r' → flag = x.complete) :
    Expansion.Spec grammarmap key complete (read ++ [e])
      { x with newvalues := x.newvalues.map (· ++ [e]), complete := flag } := by
  obtain ⟨marked, hform, hprogress, hone, hexpands⟩ := hx.marked
  refine ⟨⟨marked ++ [.keep e.sym], ?_, ?_, ?_, ?_⟩, ?_, ?_, ?_⟩
  · rw [List.map_append, hform, form_append]
    rfl
  · intro v hv
    rw [List.map_append, List.mem_append] at hv
    have hreplaced : ∃ u, Marked.replace u ∈ marked := by
      rcases hv with hv | hv
      · exact hprogress v hv
      · have hr : e.type = some 'r' := by
          by_contra hr
          simp [Marked.symbol, Entity.sym, hr] at hv
        exact hone.resolve_left (hlen hr)
    obtain ⟨u, hu⟩ := hreplaced
    exact ⟨u, List.mem_append_left _ hu⟩
  · rw [List.length_map]
    rcases hone with hone | ⟨u, hu⟩
    · exact Or.inl hone
    · exact Or.inr ⟨u, List.mem_append_left _ hu⟩
  · intro f
    rw [expands_append]
    simp only [expands_keep, hexpands, List.mem_map]
    refine ⟨?_, ?_⟩
    · rintro ⟨first, second, ⟨v, hv, rfl⟩, rfl, rfl⟩
      exact ⟨v ++ [e], ⟨v, hv, rfl⟩, form_append v [e]⟩
    · rintro ⟨v', ⟨v, hv, rfl⟩, rfl⟩
      exact ⟨form v, [e.sym], ⟨v, hv, rfl⟩, rfl, form_append v [e]⟩
  · simpa using hx.nonempty
  · intro v' hv' d hd
    obtain ⟨v, hv, rfl⟩ := List.mem_map.mp hv'
    rcases List.mem_append.mp hd with hd | hd
    · exact hx.elements v hv d hd
    · rw [List.mem_singleton.mp hd]
      exact he
  · intro hread
    have hlast : e.type ≠ some 'r' := hread e (by simp)
    exact (hflag hlast).trans (hx.flag fun d hd => hread d (by simp [hd]))

/-- The element is replaced by each of its right-hand sides. -/
theorem Expansion.Spec.replace (hx : x.Spec grammarmap key complete read)
    (hr : e.type = some 'r') {added : List Entities} {g' : StandardGrammar}
    (hforms : ∀ f, f ∈ added.map form ↔ ∃ first ∈ x.newvalues.map form, ∃ second,
      rules grammarmap e.toKey second ∧ f = first ++ second)
    (hne : added ≠ []) (helements : ∀ v ∈ added, ∀ d ∈ v, ElementOk grammarmap key d) :
    Expansion.Spec grammarmap key complete (read ++ [e])
      { x with newvalues := added, grammar := g' } := by
  obtain ⟨marked, hform, -, -, hexpands⟩ := hx.marked
  have hsym : e.sym = .inl e.toKey := if_pos hr
  have hreplaced : Marked.replace e.toKey ∈ marked ++ [(.replace e.toKey : Marked Str Str)] := by
    simp
  refine ⟨⟨marked ++ [.replace e.toKey], ?_, ?_, ?_, ?_⟩, hne, helements, ?_⟩
  · rw [List.map_append, hform, form_append]
    simp [form, hsym, Marked.symbol]
  · exact fun _ _ => ⟨_, hreplaced⟩
  · exact Or.inr ⟨_, hreplaced⟩
  · intro f
    rw [expands_append, hforms]
    simp only [expands_replace, hexpands]
    refine ⟨?_, ?_⟩
    · rintro ⟨first, second, h1, h2, rfl⟩
      exact ⟨first, h1, second, h2, rfl⟩
    · rintro ⟨first, h1, second, h2, rfl⟩
      exact ⟨first, second, h1, h2, rfl⟩
  · exact fun hread => absurd hr (hread e (by simp))

theorem Expansion.Spec.expandSymbol {ord : HashOrder} (hm : ElementsOk grammarmap)
    (hx : x.Spec grammarmap key complete read) (hrhs : e.Rhs) (he : ElementOk grammarmap key e) :
    ∃ x', expandSymbol ord grammarmap x e = some x' ∧
      x'.Spec grammarmap key complete (read ++ [e]) := by
  unfold Grammar.expandSymbol
  by_cases hr : e.type = some 'r'
  · rw [if_pos hr]
    have hreplaceable : e.Replaceable := ⟨hrhs, hr, he.no_order hr⟩
    have hkey : startsWith "r-" e.toKey := by
      rw [hreplaceable.part.1]
      exact hreplaceable.part.2.2
    have hok : ∀ es ∈ ord.enum (grammarmap.get e.toKey), ∀ d ∈ es,
        ElementOk grammarmap e.toKey d := fun es hes => hm _ es (ord.mem_enum.mp hes)
    have hnamed : ∀ es ∈ ord.enum (grammarmap.get e.toKey), ∀ d ∈ es, ¬ d.Bare :=
      fun es hes d hd => (hok es hes d hd).named hkey
    have hrules : ∀ f, rules grammarmap e.toKey f ↔
        ∃ es ∈ ord.enum (grammarmap.get e.toKey), form es = f := by
      intro f
      simp [rules, ord.mem_enum]
    split
    · rename_i hnil
      have := (ord.perm (grammarmap.get e.toKey)).length_eq
      rw [hnil] at this
      exact absurd (List.length_eq_zero_iff.mp this.symm) (he.defined hr)
    · rename_i replacement hone
      rw [hone] at hok hnamed hrules
      obtain ⟨added, g', hfold, hforms, hmem⟩ := @foldlM_addModified_spec _ x.newvalues id
        (fun _ => replacement) _ hreplaceable (fun _ _ => hnamed _ (by simp)) [] x.grammar
      have hadd : addReplacement x.grammar x.newvalues replacement e = some (added, g') := hfold
      refine ⟨_, by rw [hadd]; rfl, hx.replace hr ?_ ?_ ?_⟩
      · intro f
        rw [hforms]
        simp only [hrules, List.mem_map, List.mem_singleton, id, exists_eq_left]
        refine ⟨?_, ?_⟩
        · rintro ⟨v, hv, rfl⟩
          exact ⟨_, ⟨v, hv, rfl⟩, _, rfl, rfl⟩
        · rintro ⟨_, ⟨v, hv, rfl⟩, _, rfl, rfl⟩
          exact ⟨v, hv, rfl⟩
      · intro hnil
        have := congrArg List.length hforms
        rw [hnil] at this
        exact hx.nonempty (List.length_eq_zero_iff.mp (by simpa using this.symm))
      · intro v hv d hd
        obtain ⟨a, ha, hda | ⟨c, hc, hcd⟩⟩ := hmem v hv d hd
        · exact hx.elements a ha d hda
        · exact ((hok _ (by simp) c hc).of_named hkey).copy hcd
    · rename_i it hit hnil _
      obtain ⟨added, g', hfold, hforms, hmem⟩ := @foldlM_addModified_spec _
        (ord.enum (grammarmap.get e.toKey)) (fun _ => it) id _ hreplaceable hnamed [] x.grammar
      have hadd : addReplacements x.grammar it (ord.enum (grammarmap.get e.toKey)) e =
          some (added, g') := hfold
      refine ⟨_, by rw [hadd]; rfl, hx.replace hr ?_ ?_ ?_⟩
      · intro f
        rw [hforms, hit]
        simp only [hrules, List.mem_map, List.map_cons, List.map_nil, List.mem_singleton, id,
          exists_eq_left]
        refine ⟨?_, ?_⟩
        · rintro ⟨es, hes, rfl⟩
          exact ⟨_, ⟨es, hes, rfl⟩, rfl⟩
        · rintro ⟨_, ⟨es, hes, rfl⟩, rfl⟩
          exact ⟨es, hes, rfl⟩
      · intro hadded
        have := congrArg List.length hforms
        rw [hadded] at this
        exact hnil (List.length_eq_zero_iff.mp (by simpa using this.symm))
      · intro v hv d hd
        obtain ⟨es, hes, hda | ⟨c, hc, hcd⟩⟩ := hmem v hv d hd
        · exact hx.elements it (by simp [hit]) d hda
        · exact ((hok es hes c hc).of_named hkey).copy hcd
    · rename_i hmany
      refine ⟨_, rfl, hx.keep he (fun _ hlen => ?_) fun hne => absurd hr hne⟩
      obtain ⟨it, hit⟩ := List.length_eq_one_iff.mp hlen
      exact hmany it hit
  · rw [if_neg hr]
    exact ⟨_, rfl, hx.keep he (fun h => absurd h hr) fun _ => rfl⟩

theorem expandEntry_spec {ord : HashOrder} (hm : ElementsOk grammarmap) (g : StandardGrammar)
    {oldvalue : Entities} (hrhs : ∀ e ∈ oldvalue, e.Rhs)
    (hold : ∀ e ∈ oldvalue, ElementOk grammarmap key e) :
    ∃ x, expandEntry ord grammarmap g complete oldvalue = some x ∧
      x.Spec grammarmap key complete oldvalue := by
  refine foldlM_total (P := Expansion.Spec grammarmap key complete) ?_ ?_
  · have hprogress : Progressive ([] : List (Marked Str Str)) := by
      intro v hv
      simp at hv
    refine ⟨⟨[], rfl, hprogress, Or.inl rfl, fun f => ⟨fun h => ?_, fun h => ?_⟩⟩, by simp,
      by simp, fun _ => rfl⟩
    · cases h
      exact List.mem_singleton_self _
    · rw [List.mem_singleton.mp h]
      exact .nil
  · exact fun read e x he hx => hx.expandSymbol hm (hrhs e he) (hold e he)

end

/-! ## One step -/

/-- The new map holds the expansions of the entries that were read. -/
structure StepSpec (grammarmap : MultiHashMap Str Entities) (read : List (Str × Entities))
    (complete : Bool) (newGrammarmap : MultiHashMap Str Entities) : Prop where
  unique : HashMap.Unique newGrammarmap
  sound : ∀ key v, newGrammarmap.Holds key v → (∃ marked es, (key, es) ∈ read ∧
    marked.map Marked.symbol = form es ∧ Progressive marked ∧
      Expands (rules grammarmap) marked (form v)) ∧ ∀ e ∈ v, ElementOk grammarmap key e
  every : ∀ key es, (key, es) ∈ read → ∃ marked, marked.map Marked.symbol = form es ∧
    (∃ v, newGrammarmap.Holds key v) ∧ ∀ f, Expands (rules grammarmap) marked f →
      ∃ v, newGrammarmap.Holds key v ∧ form v = f
  flag : (∀ it ∈ read, ∀ e ∈ it.2, e.type ≠ some 'r') → complete = true

section

variable {grammarmap newGrammarmap : MultiHashMap Str Entities} {read : List (Str × Entities)}
  {complete : Bool}

theorem StepSpec.put (h : StepSpec grammarmap read complete newGrammarmap) {it : Str × Entities}
    {x : Expansion} (hx : x.Spec grammarmap it.1 complete it.2) :
    StepSpec grammarmap (read ++ [it]) x.complete
      (x.newvalues.foldl (fun m v => MultiHashMap.put m it.1 v) newGrammarmap) := by
  obtain ⟨key, es⟩ := it
  obtain ⟨marked, hform, hprogress, -, hexpands⟩ := hx.marked
  refine ⟨?_, fun key' v hv => ?_, fun key' es' hes => ?_, fun hread => ?_⟩
  · exact foldl_induction h.unique fun m v _ hm => MultiHashMap.put_unique hm _ _
  · rcases MultiHashMap.holds_foldl_put.mp hv with hv | ⟨hkey, hmem⟩
    · obtain ⟨⟨marked', es', hes, hrest⟩, helements⟩ := h.sound key' v hv
      exact ⟨⟨marked', es', List.mem_append_left _ hes, hrest⟩, helements⟩
    · subst hkey
      have hmarked := (hexpands (form v)).mpr (List.mem_map_of_mem hmem)
      exact ⟨⟨marked, es, by simp, hform, hprogress, hmarked⟩, hx.elements v hmem⟩
  · rcases List.mem_append.mp hes with hes | hes
    · obtain ⟨marked', hform', ⟨v, hv⟩, hall⟩ := h.every key' es' hes
      refine ⟨marked', hform', ⟨v, MultiHashMap.holds_foldl_put.mpr (Or.inl hv)⟩, fun f hf => ?_⟩
      obtain ⟨w, hw, rfl⟩ := hall f hf
      exact ⟨w, MultiHashMap.holds_foldl_put.mpr (Or.inl hw), rfl⟩
    · cases List.mem_singleton.mp hes
      have hnew : ∀ v ∈ x.newvalues, MultiHashMap.Holds
          (x.newvalues.foldl (fun m v => MultiHashMap.put m key v) newGrammarmap) key v :=
        fun v hv => MultiHashMap.holds_foldl_put.mpr (Or.inr ⟨rfl, hv⟩)
      obtain ⟨v, hv⟩ := List.exists_mem_of_ne_nil _ hx.nonempty
      refine ⟨marked, hform, ⟨v, hnew v hv⟩, fun f hf => ?_⟩
      obtain ⟨w, hw, rfl⟩ := List.mem_map.mp ((hexpands f).mp hf)
      exact ⟨w, hnew w hw, rfl⟩
  · rw [hx.flag (hread (key, es) (by simp))]
    exact h.flag fun it hit => hread it (by simp [hit])

end

/-- What the steps keep: the symbols and the map are in order, and so are the elements. -/
structure StandardGrammar.Sound (g : StandardGrammar) : Prop extends g.Ok where
  unique : HashMap.Unique g.grammarmap
  elements : ElementsOk g.grammarmap

/-- What each entry adds to, a step that expands all of them keeps. -/
theorem expandStep_total {g : StandardGrammar} {ord : HashOrder}
    {P : List (Str × Entities) → Bool → MultiHashMap Str Entities → Prop} (hnil : P [] true [])
    (hentry : ∀ read it g₁ complete m, it ∈ g.grammarmap.entrySet ord → P read complete m →
      ∃ x, expandEntry ord g.grammarmap g₁ complete it.2 = some x ∧ P (read ++ [it]) x.complete
        (x.newvalues.foldl (fun m v => MultiHashMap.put m it.1 v) m)) :
    ∃ g' complete, g.expandStep ord = some (g', complete) ∧
      P (g.grammarmap.entrySet ord) complete g'.grammarmap := by
  have hfold : ∃ s, (g.grammarmap.entrySet ord).foldlM
      (fun (s : StandardGrammar × Bool × MultiHashMap Str Entities) it => do
        let x ← expandEntry ord g.grammarmap s.1 s.2.1 it.2
        let newGrammarmap := x.newvalues.foldl (fun m v => MultiHashMap.put m it.1 v) s.2.2
        some (x.grammar, x.complete, newGrammarmap))
      (g, true, ([] : MultiHashMap Str Entities)) = some s ∧
        P (g.grammarmap.entrySet ord) s.2.1 s.2.2 := by
    refine foldlM_total (P := fun read (s : StandardGrammar × Bool × MultiHashMap Str Entities) =>
      P read s.2.1 s.2.2) hnil ?_
    rintro read it ⟨g₁, complete, m⟩ hit hs
    obtain ⟨x, hx, hspec⟩ := hentry read it g₁ complete m hit hs
    exact ⟨_, by simp only [hx, Option.bind_eq_bind, Option.bind_some]; rfl, hspec⟩
  obtain ⟨⟨g₁, complete, m⟩, hrun, hspec⟩ := hfold
  refine ⟨{ g₁ with grammarmap := m }, complete, ?_, hspec⟩
  unfold StandardGrammar.expandStep
  exact congrArg (·.bind fun s => some ({ s.1 with grammarmap := s.2.2 }, s.2.1)) hrun

theorem StandardGrammar.Sound.stepSpec {g : StandardGrammar} (h : g.Sound) (ord : HashOrder) :
    ∃ g' complete, g.expandStep ord = some (g', complete) ∧
      StepSpec g.grammarmap (g.grammarmap.entrySet ord) complete g'.grammarmap := by
  refine expandStep_total (P := StepSpec g.grammarmap) ?_ ?_
  · refine ⟨HashMap.Unique.nil, ?_, ?_, fun _ => rfl⟩
    · rintro key v ⟨vs, hvs, -⟩
      cases hvs
    · intro key es hes
      cases hes
  · intro read it g₁ complete m hit hs
    have hmem : it.2 ∈ g.grammarmap.get it.1 :=
      (MultiHashMap.mem_get_iff h.unique).mpr (MultiHashMap.mem_entrySet.mp hit)
    obtain ⟨x, hx, hspec⟩ := @expandEntry_spec _ it.1 complete ord h.elements g₁ it.2
      (h.values.of_mem_entrySet hit) (h.elements it.1 it.2 hmem)
    exact ⟨x, hx, hs.put hspec⟩

section

variable {g g' : StandardGrammar} {ord : HashOrder} {complete : Bool}
  (hspec : StepSpec g.grammarmap (g.grammarmap.entrySet ord) complete g'.grammarmap)
include hspec

theorem StepSpec.isExpansion (h : g.Sound) :
    IsExpansion (rules g.grammarmap) (rules g'.grammarmap) := by
  refine ⟨fun hrule => ?_, fun hrule => ?_⟩
  · obtain ⟨v, hv, rfl⟩ := hrule
    obtain ⟨⟨marked, es, hes, hform, hprogress, hexpands⟩, -⟩ :=
      hspec.sound _ v (MultiHashMap.mem_get hv)
    have hmem := (MultiHashMap.mem_get_iff h.unique).mpr (MultiHashMap.mem_entrySet.mp hes)
    exact ⟨marked, hprogress, ⟨es, hmem, hform.symm⟩, hexpands⟩
  · obtain ⟨es, hes, rfl⟩ := hrule
    have hentry := (@MultiHashMap.mem_entrySet _ _ _ ord _ _).mpr (MultiHashMap.mem_get hes)
    obtain ⟨marked, hform, -, hall⟩ := hspec.every _ es hentry
    refine ⟨marked, hform, fun hf => ?_⟩
    obtain ⟨v, hv, hvf⟩ := hall _ hf
    exact ⟨v, (MultiHashMap.mem_get_iff hspec.unique).mpr hv, hvf⟩

theorem StepSpec.elementsOk : ElementsOk g'.grammarmap := by
  have hdefined : ∀ key, g.grammarmap.get key ≠ [] → g'.grammarmap.get key ≠ [] := by
    intro key hne
    obtain ⟨es, hes⟩ := List.exists_mem_of_ne_nil _ hne
    have hentry := (@MultiHashMap.mem_entrySet _ _ _ ord _ _).mpr (MultiHashMap.mem_get hes)
    obtain ⟨-, -, ⟨v, hv⟩, -⟩ := hspec.every key es hentry
    exact List.ne_nil_of_mem ((MultiHashMap.mem_get_iff hspec.unique).mpr hv)
  intro key v hv e he
  have h := (hspec.sound key v (MultiHashMap.mem_get hv)).2 e he
  exact ⟨fun hr => hdefined _ (h.defined hr), h.no_order, h.named⟩

end

/-- A step keeps what the steps need, and the language of every symbol. -/
theorem StandardGrammar.Sound.expandStep {g : StandardGrammar} (h : g.Sound) (ord : HashOrder) :
    ∃ g' complete, g.expandStep ord = some (g', complete) ∧ g'.Sound ∧
      IsExpansion (rules g.grammarmap) (rules g'.grammarmap) ∧
      ((∀ key es, es ∈ g.grammarmap.get key → ∀ e ∈ es, e.type ≠ some 'r') → complete = true) := by
  obtain ⟨g', complete, hstep, hspec⟩ := h.stepSpec ord
  refine ⟨g', complete, hstep, ⟨h.toOk.expandStep hstep, hspec.unique, hspec.elementsOk⟩,
    hspec.isExpansion h, fun hfree => hspec.flag fun it hit e he => ?_⟩
  have hmem := (MultiHashMap.mem_get_iff h.unique).mpr (MultiHashMap.mem_entrySet.mp hit)
  exact hfree it.1 it.2 hmem e he

/-! ## The whole run -/

theorem mem_form_of_type {es : Entities} {e : Entity} (he : e ∈ es) (hr : e.type = some 'r') :
    .inl e.toKey ∈ form es :=
  List.mem_map.mpr ⟨e, he, if_pos hr⟩

/-- With every step the right-hand sides get lighter, until no `r-` symbol is left. -/
theorem expand_of_weight {w : Str → Nat} (hpos : ∀ v, 0 < w v) (ord : HashOrder) (b : Nat)
    {g : StandardGrammar} (h : g.Sound) (hw : Descending (rules g.grammarmap) w)
    (hb : ∀ v f, rules g.grammarmap v f → weight w f ≤ b) :
    ∀ fuel, b < fuel → ∃ g', StandardGrammar.expand ord fuel g = some g' ∧
      ∀ key word, Language (rules g'.grammarmap) key word ↔
        Language (rules g.grammarmap) key word := by
  induction b generalizing g with
  | zero =>
      intro fuel hfuel
      obtain ⟨fuel, rfl⟩ := Nat.exists_eq_add_one_of_ne_zero (Nat.ne_zero_of_lt hfuel)
      obtain ⟨g', complete, hstep, -, hexpansion, hflag⟩ := h.expandStep ord
      have hcomplete : complete = true := by
        refine hflag fun key es hes e he hr => ?_
        have hle := hb key _ ⟨es, hes, rfl⟩
        have := le_weight (w := w) (mem_form_of_type he hr)
        have := hpos e.toKey
        omega
      refine ⟨g'.buildReducemap ord, ?_, fun key word => hexpansion.language_iff⟩
      simp only [StandardGrammar.expand, hstep, Option.bind_eq_bind, Option.bind_some, hcomplete,
        if_true]
  | succ b ih =>
      intro fuel hfuel
      obtain ⟨fuel, rfl⟩ := Nat.exists_eq_add_one_of_ne_zero (Nat.ne_zero_of_lt hfuel)
      obtain ⟨g', complete, hstep, hsound, hexpansion, -⟩ := h.expandStep ord
      cases complete with
      | true =>
          refine ⟨g'.buildReducemap ord, ?_, fun key word => hexpansion.language_iff⟩
          simp only [StandardGrammar.expand, hstep, Option.bind_eq_bind, Option.bind_some, if_true]
      | false =>
          obtain ⟨g'', hrun, hlanguage⟩ := ih hsound (hexpansion.descending hw)
            (fun v f hrule => hexpansion.weight_bound hw hb hrule) fuel (by omega)
          refine ⟨g'', ?_, fun key word => (hlanguage key word).trans hexpansion.language_iff⟩
          simp only [StandardGrammar.expand, hstep, Option.bind_eq_bind, Option.bind_some]
          exact hrun

theorem exists_bound {α : Type} (l : List α) (f : α → Nat) : ∃ b, ∀ a ∈ l, f a ≤ b := by
  induction l with
  | nil => exact ⟨0, by simp⟩
  | cons a l ih =>
      obtain ⟨b, hb⟩ := ih
      refine ⟨max (f a) b, List.forall_mem_cons.mpr ⟨Nat.le_max_left _ _, fun c hc => ?_⟩⟩
      exact Nat.le_trans (hb c hc) (Nat.le_max_right _ _)

theorem exists_weight_of_acyclic {grammarmap : MultiHashMap Str Entities}
    (h : Acyclic (rules grammarmap)) :
    ∃ w, (∀ v, 0 < w v) ∧ Descending (rules grammarmap) w := by
  have hmem : ∀ v f, rules grammarmap v f → ∃ es ∈ grammarmap.flatMap (·.2), form es = f := by
    rintro v f ⟨es, hes, rfl⟩
    obtain ⟨vs, hvs, hes⟩ := MultiHashMap.mem_get hes
    exact ⟨es, List.mem_flatMap.mpr ⟨_, hvs, hes⟩, rfl⟩
  obtain ⟨b, hb⟩ := exists_bound (grammarmap.flatMap (·.2)) List.length
  refine @Acyclic.exists_weight _ _ _ h
    ((grammarmap.flatMap (·.2)).flatMap (·.map Entity.toKey)).toFinset (b + 1) ?_ ?_
  · rintro v u ⟨f, hrule, hu⟩
    obtain ⟨es, hes, rfl⟩ := hmem v f hrule
    obtain ⟨e, he, hsym⟩ := List.mem_map.mp hu
    have hkey := (Entity.sym_eq_inl.mp hsym).2
    simp only [List.mem_toFinset, List.mem_flatMap, List.mem_map]
    exact ⟨es, List.mem_flatMap.mp hes, e, he, hkey⟩
  · intro v f hrule
    obtain ⟨es, hes, rfl⟩ := hmem v f hrule
    rw [form, List.length_map]
    exact Nat.lt_succ_of_le (hb es hes)

/-! ## The grammars that are reached -/

/-- What reading lines, expanding and building the reducemap lead to. -/
inductive Reached (ord : HashOrder) : StandardGrammar → Prop where
  | read {lines : List Str} {g : StandardGrammar} {key : Option Entity} :
      lines.foldlM readLine ({}, none) = some (g, key) → Reached ord g
  | built {g : StandardGrammar} : Reached ord g → Reached ord (g.buildReducemap ord)
  | stepped {g g' : StandardGrammar} {complete : Bool} :
      Reached ord g → g.expandStep ord = some (g', complete) → Reached ord g'

theorem addSymbol_grammarmap {g g' : StandardGrammar} {str : Str} {e : Entity}
    (h : g.addSymbol str = some (e, g')) : g'.grammarmap = g.grammarmap := by
  unfold StandardGrammar.addSymbol at h
  split at h
  · cases h
    rfl
  · simp only [Option.map_eq_some_iff, Prod.mk.injEq] at h
    obtain ⟨_, _, _, rfl⟩ := h
    rfl

theorem addSymbols_grammarmap {g g' : StandardGrammar} {parts : List Str} {es : Entities}
    (h : g.addSymbols parts = some (es, g')) : g'.grammarmap = g.grammarmap := by
  refine foldlM_induction (P := fun x : Entities × StandardGrammar =>
    x.2.grammarmap = g.grammarmap) h rfl ?_
  rintro ⟨es₁, g₁⟩ part ⟨es₂, g₂⟩ - hg hstep
  simp only [Option.bind_eq_bind, Option.bind_eq_some_iff, Option.some.injEq,
    Prod.mk.injEq] at hstep
  obtain ⟨⟨e, g₃⟩, hadd, -, rfl⟩ := hstep
  exact (addSymbol_grammarmap hadd).trans hg

theorem readValue_grammarmap {g g' : StandardGrammar} {keyObj : Option Entity} {line : Str}
    (h : g.readValue keyObj line = some g') : ∃ parts es g₁ key, g.addSymbols parts = some (es, g₁) ∧
      g'.grammarmap = MultiHashMap.put g.grammarmap key es := by
  simp only [StandardGrammar.readValue, Option.bind_eq_bind, Option.bind_eq_some_iff,
    Option.some.injEq] at h
  obtain ⟨⟨es, g₁⟩, hadd, key, -, rfl⟩ := h
  exact ⟨_, es, g₁, key.toKey, hadd, by rw [addSymbols_grammarmap hadd]⟩

/-- A line leaves the map of the grammar as it is or adds one right-hand side. -/
theorem readLine_grammarmap {state state' : StandardGrammar × Option Entity} {line : Str}
    (h : readLine state line = some state') : state'.1.grammarmap = state.1.grammarmap ∨
      ∃ (g g₁ : StandardGrammar) (parts : List Str) (es : Entities) (key : Str),
        g.addSymbols parts = some (es, g₁) ∧
          state'.1.grammarmap = MultiHashMap.put state.1.grammarmap key es := by
  unfold readLine at h
  split at h
  · cases h
    exact Or.inl rfl
  split at h
  · simp only [Option.bind_eq_bind, Option.bind_eq_some_iff] at h
    obtain ⟨⟨key, g⟩, hadd, h⟩ := h
    have hg := addSymbol_grammarmap hadd
    dsimp only at h
    split at h
    · simp only [Option.bind_eq_some_iff, Option.some.injEq] at h
      obtain ⟨g', hvalue, rfl⟩ := h
      obtain ⟨parts, es, g₁, key, hadd, hput⟩ := readValue_grammarmap hvalue
      exact Or.inr ⟨g, g₁, parts, es, key, hadd, hg ▸ hput⟩
    · cases h
      exact Or.inl hg
  split at h
  · simp only [Option.bind_eq_bind, Option.bind_eq_some_iff, Option.some.injEq] at h
    obtain ⟨g', hvalue, rfl⟩ := h
    obtain ⟨parts, es, g₁, key, hadd, hput⟩ := readValue_grammarmap hvalue
    exact Or.inr ⟨state.1, g₁, parts, es, key, hadd, hput⟩
  · cases h
    exact Or.inl rfl

theorem readLine_unique {state state' : StandardGrammar × Option Entity} {line : Str}
    (hu : HashMap.Unique state.1.grammarmap) (h : readLine state line = some state') :
    HashMap.Unique state'.1.grammarmap := by
  rcases readLine_grammarmap h with heq | ⟨g, g₁, parts, es, key, -, heq⟩
  · rwa [heq]
  · rw [heq]
    exact MultiHashMap.put_unique hu _ _

theorem expandStep_unique {g g' : StandardGrammar} {ord : HashOrder} {complete : Bool}
    (h : g.expandStep ord = some (g', complete)) : HashMap.Unique g'.grammarmap := by
  simp only [StandardGrammar.expandStep, Option.bind_eq_bind, Option.bind_eq_some_iff,
    Option.some.injEq, Prod.mk.injEq] at h
  obtain ⟨⟨g₁, c₁, m₁⟩, hfold, rfl, rfl⟩ := h
  refine foldlM_induction (P := fun x : StandardGrammar × Bool × MultiHashMap Str Entities =>
    HashMap.Unique x.2.2) hfold HashMap.Unique.nil ?_
  rintro ⟨g₂, c₂, m₂⟩ it ⟨g₃, c₃, m₃⟩ - hm hstep
  simp only [Option.bind_eq_some_iff, Option.some.injEq, Prod.mk.injEq] at hstep
  obtain ⟨x, -, -, -, rfl⟩ := hstep
  exact foldl_induction hm fun m v _ hm => MultiHashMap.put_unique hm _ _

theorem Reached.ok {ord : HashOrder} {g : StandardGrammar} (h : Reached ord g) :
    g.Ok ∧ HashMap.Unique g.grammarmap := by
  induction h with
  | read hread =>
      exact foldlM_induction (P := fun x : StandardGrammar × Option Entity =>
        x.1.Ok ∧ HashMap.Unique x.1.grammarmap) hread ⟨.empty, HashMap.Unique.nil⟩
        fun _ _ _ _ hx hr => ⟨readLine_ok hx.1 hr, readLine_unique hx.2 hr⟩
  | built _ ih => exact ⟨(ih.1.buildReducemap ord).1, ih.2⟩
  | stepped _ hstep ih => exact ⟨ih.1.expandStep hstep, expandStep_unique hstep⟩

/-! ## Grammars that can be checked -/

instance (grammarmap : MultiHashMap Str Entities) (key : Str) (e : Entity) :
    Decidable (ElementOk grammarmap key e) :=
  decidable_of_iff ((e.type = some 'r' → grammarmap.get e.toKey ≠ []) ∧
      (e.type = some 'r' → e.order < 0) ∧ (startsWith "r-" key → ¬ e.Bare))
    ⟨fun h => ⟨h.1, h.2.1, h.2.2⟩, fun h => ⟨h.1, h.2, h.3⟩⟩

theorem elementsOk_of_forall {grammarmap : MultiHashMap Str Entities}
    (h : ∀ d ∈ grammarmap, ∀ es ∈ d.2, ∀ e ∈ es, ElementOk grammarmap d.1 e) :
    ElementsOk grammarmap := by
  intro key es hes
  obtain ⟨vs, hvs, hes⟩ := MultiHashMap.mem_get hes
  exact h _ hvs es hes

theorem acyclic_of_forall {grammarmap : MultiHashMap Str Entities} (rank : Str → Nat)
    (h : ∀ d ∈ grammarmap, ∀ es ∈ d.2, ∀ e ∈ es, e.type = some 'r' → rank e.toKey < rank d.1) :
    Acyclic (rules grammarmap) := by
  apply acyclic_of_rank rank
  rintro v u ⟨f, ⟨es, hes, rfl⟩, hu⟩
  obtain ⟨vs, hvs, hes⟩ := MultiHashMap.mem_get hes
  obtain ⟨e, he, hsym⟩ := List.mem_map.mp hu
  obtain ⟨hr, rfl⟩ := Entity.sym_eq_inl.mp hsym
  exact h _ hvs es hes e he hr

end Freehal.Grammar
