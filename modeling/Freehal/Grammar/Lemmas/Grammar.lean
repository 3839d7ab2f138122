import Freehal.Lib.Fold
import Freehal.Grammar.Lemmas.Entity

/-!
# The invariant of a grammar

Reading and expanding a grammar keep its symbols well formed and its right-hand sides free of
blanks, so that every rule of the reducemap can be found in a sentence by its key.
-/

namespace Freehal.Grammar
open Lib

/-! ## Symbols and right-hand sides -/

/-- What the symbol map holds. -/
structure Entity.Sym (e : Entity) : Prop where
  wf : e.Wf
  plain : e.Plain

def Entity.Blankless (e : Entity) : Prop :=
  ' ' ∉ e.data ∧ ' ' ∉ e.symbol ∧ ' ' ∉ e.repl ∧ ∀ p ∈ e.virt, ' ' ∉ p

/-- An element of a right-hand side. -/
structure Entity.Rhs (e : Entity) : Prop extends e.Sym where
  blankless : e.Blankless

theorem Entity.Blankless.toKey {e : Entity} (h : e.Blankless) : ' ' ∉ e.toKey := by
  have hb : ' ' ∉ e.base := by
    unfold Entity.base
    split
    · exact h.1
    split
    · exact h.2.1
    split
    · exact h.2.2.1
    · decide
  unfold Entity.toKey
  split
  · simp [hb, not_mem_decimal]
  · exact hb

theorem Entity.Blankless.toLabel {e : Entity} (h : e.Blankless) : ' ' ∉ e.toLabel := by
  simp only [Entity.toLabel, List.mem_append, not_or, List.mem_flatMap, not_exists, not_and]
  refine ⟨h.toKey, fun p hp => ?_⟩
  simpa using h.2.2.2 p hp

theorem Entity.Wf.blankless {e : Entity} (h : e.Wf) (hl : ' ' ∉ e.toLabel) : e.Blankless := by
  simp only [Entity.toLabel, List.mem_append, not_or, List.mem_flatMap, not_exists, not_and] at hl
  have hb : ' ' ∉ e.base := by
    have := hl.1
    unfold Entity.toKey at this
    split at this
    · simp only [List.mem_append, not_or] at this; exact this.1
    · exact this
  have hv : ∀ p ∈ e.virt, ' ' ∉ p := fun p hp => by simpa using hl.2 p hp
  rcases h.key with ⟨⟨hs, hr, hd⟩, _⟩ | ⟨hr, hd, hp, _⟩ | ⟨hs, hd, hp, _⟩ | ⟨hs, hr, hp, _⟩
  · exact ⟨by simp [hd], by simp [hs], by simp [hr], hv⟩
  · have : e.base = e.symbol := by simp [Entity.base, hd, hp.ne_nil]
    exact ⟨by simp [hd], this ▸ hb, by simp [hr], hv⟩
  · have : e.base = e.repl := by simp [Entity.base, hs, hd, hp.ne_nil]
    exact ⟨by simp [hd], by simp [hs], this ▸ hb, hv⟩
  · have : e.base = e.data := by simp [Entity.base, hp.ne_nil]
    exact ⟨this ▸ hb, by simp [hs], by simp [hr], hv⟩

theorem Entity.initPart_blankless {e e' : Entity} {p : Str} (h : e.Blankless) (hp : ' ' ∉ p)
    (hi : e.initPart p = some e') : e'.Blankless := by
  have hv : ∀ q ∈ e.virt ++ [p], ' ' ∉ q := by
    intro q hq
    rcases List.mem_append.mp hq with hq | hq
    · exact h.2.2.2 q hq
    · rw [List.mem_singleton.mp hq]; exact hp
  unfold Entity.initPart at hi
  split at hi
  · cases hi; exact h
  split at hi
  · simp only [Option.map_eq_some_iff] at hi
    obtain ⟨n, _, rfl⟩ := hi
    exact h
  split at hi
  · split at hi
    · cases hi; exact ⟨h.1, hp, h.2.2⟩
    split at hi
    · cases hi; exact ⟨h.1, h.2.1, hp, h.2.2.2⟩
    split at hi
    · cases hi; exact ⟨hp, h.2⟩
    · cases hi; exact ⟨h.1, h.2.1, h.2.2.1, hv⟩
  · split at hi
    · cases hi; exact h
    · cases hi; exact ⟨h.1, h.2.1, h.2.2.1, hv⟩

theorem Entity.init_blankless {e e' : Entity} {text : Str} (h : e.Blankless) (ht : ' ' ∉ text)
    (hi : e.init text = some e') : e'.Blankless :=
  foldlM_induction (P := Entity.Blankless) hi h fun _ _ _ hp h hi =>
    Entity.initPart_blankless h (fun hb => ht (mem_of_mem_splitOn hp hb)) hi

theorem Entity.Sym.of_new {e : Entity} {text : Str} (h : Entity.new text = some e) : e.Sym :=
  ⟨(Entity.new_wf h).1, (Entity.new_wf h).2⟩

theorem Entity.Sym.modify {e e' : Entity} {marker : List Str} (h : e.Sym)
    (hm : e.modify marker = some e') : e'.Sym := by
  obtain ⟨hw, ht, he⟩ := Entity.modify_wf h.wf hm
  exact ⟨hw, ht.trans h.plain.1, he.trans h.plain.2⟩

theorem Entity.Rhs.getMarker {e : Entity} (h : e.Rhs) : ' ' ∉ e.getMarker.flatMap ('/' :: ·) := by
  unfold Entity.getMarker
  split
  · simp only [List.mem_flatMap, not_exists, not_and]
    intro p hp
    simpa using h.blankless.2.2.2 p hp
  · simpa [h.plain.toStr] using h.blankless.toLabel

theorem Entity.Rhs.modify {e e' f : Entity} (h : e.Rhs) (hf : f.Rhs)
    (hm : e.modify f.getMarker = some e') : e'.Rhs :=
  ⟨h.toSym.modify hm, Entity.init_blankless h.blankless hf.getMarker hm⟩

/-! ## Markers can always be read -/

theorem Entity.initPart_total (e : Entity) {p : Str} (hp : Part p) : ∃ e', e.initPart p = some e' := by
  unfold Entity.initPart
  rw [if_neg (not_or_intro hp.ne_nil hp.ne_null), if_neg (by simp [hp.not_order])]
  split
  · split
    · exact ⟨_, rfl⟩
    split
    · exact ⟨_, rfl⟩
    split
    · exact ⟨_, rfl⟩
    · exact ⟨_, rfl⟩
  · split
    · exact ⟨_, rfl⟩
    · exact ⟨_, rfl⟩

theorem Entity.initParts_total {ps : List Str} (e : Entity)
    (h : ∀ p ∈ ps, ∀ e : Entity, ∃ e', e.initPart p = some e') : ∃ e', e.initParts ps = some e' := by
  obtain ⟨e', he, -⟩ := foldlM_total (P := fun _ _ => True) (f := Entity.initPart) (s := e) trivial
    fun _ p e hp _ => (h p hp e).imp fun _ he => ⟨he, trivial⟩
  exact ⟨e', he⟩

/-- Whatever the entity is, the markers of a symbol can be added to it. -/
theorem Entity.Sym.modify_total {f : Entity} (hf : f.Sym) (v : Entity) :
    ∃ e, v.modify f.getMarker = some e := by
  rw [Entity.modify_getMarker hf.wf hf.plain]
  refine Entity.initParts_total v fun p hp e => ?_
  split at hp
  · rcases List.mem_cons.mp hp with rfl | hp
    · rcases hf.wf.base_part with ⟨-, hb⟩ | ⟨-, hb⟩
      · exact ⟨e, hb ▸ e.initPart_null⟩
      · exact e.initPart_total hb
    · rcases hf.wf.order with ho | ⟨n, ho, hn⟩
      · simp [Entity.orderParts, ho] at hp
      · simp only [Entity.orderParts, ho, Int.natCast_nonneg, ↓reduceIte, Int.toNat_natCast,
          List.mem_singleton] at hp
        exact ⟨_, hp ▸ e.initPart_order hn⟩
  · exact e.initPart_total (hf.wf.virt p hp)

/-! ## The symbol map -/

def SymbolsOk (m : HashMap Str Entity) : Prop := ∀ d ∈ m, d.1 = d.2.toStr ∧ d.2.Sym

theorem SymbolsOk.put {m : HashMap Str Entity} (h : SymbolsOk m) {e : Entity} (he : e.Sym) :
    SymbolsOk (m.put e.toStr e) := by
  intro d hd
  rcases HashMap.mem_put hd with rfl | hd
  · exact ⟨rfl, he⟩
  · exact h d hd

/-- The symbol map is in order and every right-hand side is. -/
structure StandardGrammar.Ok (g : StandardGrammar) : Prop where
  symbols : SymbolsOk g.symbolmapStrObj
  values : g.grammarmap.All fun _ es => ∀ e ∈ es, e.Rhs

theorem StandardGrammar.Ok.empty : StandardGrammar.Ok {} :=
  ⟨(fun _ hd => nomatch hd), (fun _ hd => nomatch hd)⟩

theorem StandardGrammar.Ok.addEntity {g : StandardGrammar} (h : g.Ok) {e : Entity} (he : e.Sym) :
    (g.addEntity e).Ok :=
  ⟨h.symbols.put he, h.values⟩

theorem StandardGrammar.Ok.s2o {g : StandardGrammar} (h : g.Ok) {str : Str} {e : Entity}
    (he : g.s2o str = some e) : str = e.toStr ∧ e.Sym := by
  unfold StandardGrammar.s2o at he
  split at he
  · cases he
  · exact h.symbols _ (HashMap.mem_of_get he)

theorem StandardGrammar.Ok.addSymbol {g g' : StandardGrammar} (h : g.Ok) {str : Str} {e : Entity}
    (ha : g.addSymbol str = some (e, g')) : g'.Ok ∧ e.Sym ∧ (' ' ∉ str → e.Rhs) := by
  unfold StandardGrammar.addSymbol at ha
  split at ha
  · rename_i key hs
    obtain ⟨rfl, rfl⟩ : key = e ∧ g = g' := by simpa using ha
    obtain ⟨rfl, hsym⟩ := h.s2o hs
    exact ⟨h, hsym, fun hb => ⟨hsym, hsym.wf.blankless (hsym.plain.toStr ▸ hb)⟩⟩
  · simp only [Option.map_eq_some_iff, Prod.mk.injEq] at ha
    obtain ⟨key, hn, rfl, rfl⟩ := ha
    have hsym := Entity.Sym.of_new hn
    have hempty : Entity.Blankless {} := by simp [Entity.Blankless]
    exact ⟨h.addEntity hsym, hsym, fun hb => ⟨hsym, Entity.init_blankless hempty hb hn⟩⟩

theorem StandardGrammar.Ok.modifySymbol {g g' : StandardGrammar} (h : g.Ok) {e e' f : Entity}
    (he : e.Rhs) (hf : f.Rhs) (hm : g.modifySymbol e f.getMarker = some (e', g')) :
    g'.Ok ∧ e'.Rhs := by
  simp only [StandardGrammar.modifySymbol, Option.map_eq_some_iff, Prod.mk.injEq] at hm
  obtain ⟨e', hm, rfl, rfl⟩ := hm
  have he' := he.modify hf hm
  exact ⟨h.addEntity he'.toSym, he'⟩

/-! ## Reading -/

theorem StandardGrammar.Ok.addSymbols {g g' : StandardGrammar} (h : g.Ok) {parts : List Str}
    {es : Entities} (hp : ∀ p ∈ parts, ' ' ∉ p) (ha : g.addSymbols parts = some (es, g')) :
    g'.Ok ∧ ∀ e ∈ es, e.Rhs := by
  refine foldlM_induction (P := fun x : Entities × StandardGrammar => x.2.Ok ∧ ∀ e ∈ x.1, e.Rhs)
    ha ⟨h, by simp⟩ ?_
  rintro ⟨es, g⟩ p ⟨es', g'⟩ hmem ⟨hg, hes⟩ hstep
  simp only [Option.bind_eq_bind, Option.bind_eq_some_iff, Option.some.injEq, Prod.mk.injEq] at hstep
  obtain ⟨⟨e, g₁⟩, hadd, rfl, rfl⟩ := hstep
  obtain ⟨hg₁, _, hr⟩ := hg.addSymbol hadd
  refine ⟨hg₁, fun d hd => ?_⟩
  split at hd
  · exact hes d hd
  · rcases List.mem_append.mp hd with hd | hd
    · exact hes d hd
    · rw [List.mem_singleton.mp hd]; exact hr (hp p hmem)

theorem splitBlanks_blankless {line p : Str} (h : p ∈ splitBlanks line) : ' ' ∉ p := by
  unfold splitBlanks at h
  split at h
  · rw [List.mem_singleton.mp h]; simp
  · exact not_mem_of_mem_splitOn (List.mem_of_mem_filter h)

theorem StandardGrammar.Ok.readValue {g g' : StandardGrammar} (h : g.Ok) {keyObj : Option Entity}
    {line : Str} (hr : g.readValue keyObj line = some g') : g'.Ok := by
  simp only [StandardGrammar.readValue, Option.bind_eq_bind, Option.bind_eq_some_iff,
    Option.some.injEq] at hr
  obtain ⟨⟨es, g₁⟩, ha, key, _, rfl⟩ := hr
  obtain ⟨hg, hes⟩ := h.addSymbols (fun p hp => splitBlanks_blankless hp) ha
  exact ⟨hg.symbols, hg.values.put hes⟩

theorem readLine_ok {state state' : StandardGrammar × Option Entity} {line : Str}
    (h : state.1.Ok) (hr : readLine state line = some state') : state'.1.Ok := by
  unfold readLine at hr
  split at hr
  · cases hr; exact h
  split at hr
  · simp only [Option.bind_eq_bind, Option.bind_eq_some_iff] at hr
    obtain ⟨⟨key, g⟩, ha, hr⟩ := hr
    have hg := (h.addSymbol ha).1
    dsimp only at hr
    split at hr
    · simp only [Option.bind_eq_some_iff, Option.some.injEq] at hr
      obtain ⟨g', hv, rfl⟩ := hr
      exact hg.readValue hv
    · cases hr; exact hg
  split at hr
  · simp only [Option.bind_eq_bind, Option.bind_eq_some_iff, Option.some.injEq] at hr
    obtain ⟨g', hv, rfl⟩ := hr
    exact h.readValue hv
  · cases hr; exact h

/-! ## The reducemap -/

/-- A rule that is stored under the keys of its right-hand side. -/
structure RuleOk (key : Str) (rule : Rule) : Prop where
  key_eq : key = allToKey rule.2
  value_ne : rule.2 ≠ []
  target : rule.1.Sym
  value : ∀ e ∈ rule.2, e.Rhs

def ReduceOk (reducemap : List (MultiHashMap Str Rule)) : Prop := ∀ m ∈ reducemap, m.All RuleOk

theorem StandardGrammar.Ok.addRule {g : StandardGrammar} (h : g.Ok)
    {reducemap : List (MultiHashMap Str Rule)} (hm : ReduceOk reducemap) {it : Str × Entities}
    (hit : ∀ e ∈ it.2, e.Rhs) : ReduceOk (g.addRule reducemap it) := by
  unfold StandardGrammar.addRule
  split
  · exact hm
  rename_i target ht
  split
  · rename_i hc
    have rule : RuleOk (allToKey it.2) (target, it.2) :=
      ⟨rfl, fun hnil => hc.2 (by rw [show it.2 = [] from hnil]; rfl), (h.s2o ht).2, hit⟩
    have hpad : ReduceOk (reducemap ++ List.replicate (target.getOrder + 1 - reducemap.length) []) := by
      intro m hmem
      rcases List.mem_append.mp hmem with hmem | hmem
      · exact hm m hmem
      · rw [List.eq_of_mem_replicate hmem]; intro d hd; cases hd
    intro m hmem
    rcases mem_modify hmem with hmem | ⟨n, hn, rfl⟩
    · exact hpad m hmem
    · exact (hpad n hn).put rule
  · exact hm

theorem StandardGrammar.Ok.buildReducemap {g : StandardGrammar} (h : g.Ok) (ord : HashOrder) :
    (g.buildReducemap ord).Ok ∧ ReduceOk (g.buildReducemap ord).reducemap := by
  refine ⟨⟨h.symbols, h.values⟩, ?_⟩
  refine foldl_induction (P := ReduceOk) (fun _ hm => by cases hm) fun m it hit hm => ?_
  exact h.addRule hm (h.values.of_mem_entrySet hit)

/-! ## Expanding -/

/-- Entities that can all be modified are added one after the other. -/
theorem addModified_forall₂ {T : Entity → Entity → Prop} {it entities : Entities}
    {previous : Entity}
    (h : ∀ e ∈ entities, ∃ d, e.modify previous.getMarker = some d ∧ T e d) (g : StandardGrammar) :
    ∃ more g', addModified g it entities previous = some (it ++ more, g') ∧
      List.Forall₂ T entities more := by
  unfold addModified
  induction entities generalizing it g with
  | nil => exact ⟨[], g, by simp, .nil⟩
  | cons e entities ih =>
      obtain ⟨d, hmod, hd⟩ := h e List.mem_cons_self
      obtain ⟨more, g', hfold, hmore⟩ :=
        @ih (it ++ [d]) (fun e he => h e (List.mem_cons_of_mem _ he)) (g.addEntity d)
      refine ⟨d :: more, g', ?_, .cons hd hmore⟩
      have hsymbol : g.modifySymbol e previous.getMarker = some (d, g.addEntity d) := by
        simp only [StandardGrammar.modifySymbol, hmod, Option.map_some]
      simp only [List.foldlM_cons, hsymbol, Option.bind_eq_bind, Option.bind_some]
      simpa using hfold

/-- One list with the replacement for each element of `l`. -/
theorem foldlM_addModified_forall₂ {T : Entity → Entity → Prop} {α : Type} {l : List α}
    (it entities : α → Entities) {previous : Entity}
    (h : ∀ a ∈ l, ∀ e ∈ entities a, ∃ d, e.modify previous.getMarker = some d ∧ T e d)
    (vs : List Entities) (g : StandardGrammar) :
    ∃ added g', l.foldlM (fun (x : List Entities × StandardGrammar) a => do
        let (es, g) ← addModified x.2 (it a) (entities a) previous
        some (x.1 ++ [es], g)) (vs, g) = some (vs ++ added, g') ∧
      List.Forall₂ (fun a v => ∃ more, v = it a ++ more ∧ List.Forall₂ T (entities a) more)
        l added := by
  induction l generalizing vs g with
  | nil => exact ⟨[], g, by simp, .nil⟩
  | cons a l ih =>
      obtain ⟨more, g', hadd, hmore⟩ :=
        @addModified_forall₂ T (it a) (entities a) previous (h a List.mem_cons_self) g
      obtain ⟨added, g'', hfold, hadded⟩ :=
        ih (fun b hb => h b (List.mem_cons_of_mem _ hb)) (vs ++ [it a ++ more]) g'
      refine ⟨(it a ++ more) :: added, g'', ?_, .cons ⟨more, rfl, hmore⟩ hadded⟩
      rw [List.foldlM_cons, hadd]
      simpa using hfold

/-- What holds of the grammar and of every element of the new right-hand sides. -/
def Expansion.All (G : StandardGrammar → Prop) (P : Entity → Prop) (x : Expansion) : Prop :=
  G x.grammar ∧ ∀ es ∈ x.newvalues, ∀ e ∈ es, P e

section

variable {G : StandardGrammar → Prop} {P : Entity → Prop}
  (hmod : ∀ {g g' : StandardGrammar} {e f d : Entity}, G g → P e → P f →
    g.modifySymbol e f.getMarker = some (d, g') → G g' ∧ P d)
include hmod

theorem addModified_all {g g' : StandardGrammar} (h : G g) {it entities es : Entities}
    {previous : Entity} (hit : ∀ e ∈ it, P e) (hes : ∀ e ∈ entities, P e) (hp : P previous)
    (ha : addModified g it entities previous = some (es, g')) : G g' ∧ ∀ e ∈ es, P e := by
  refine foldlM_induction (P := fun x : Entities × StandardGrammar => G x.2 ∧ ∀ e ∈ x.1, P e)
    ha ⟨h, hit⟩ ?_
  rintro ⟨es, g⟩ e ⟨es', g'⟩ hmem ⟨hg, hes'⟩ hstep
  simp only [Option.bind_eq_bind, Option.bind_eq_some_iff, Option.some.injEq, Prod.mk.injEq] at hstep
  obtain ⟨⟨e', g₁⟩, hmodify, rfl, rfl⟩ := hstep
  obtain ⟨hg₁, he'⟩ := hmod hg (hes e hmem) hp hmodify
  refine ⟨hg₁, fun d hd => ?_⟩
  rcases List.mem_append.mp hd with hd | hd
  · exact hes' d hd
  · rw [List.mem_singleton.mp hd]; exact he'

/-- Adding entities to each of several lists keeps the lists in order. -/
theorem foldlM_addModified_all {α : Type} {g g' : StandardGrammar} (h : G g) {l : List α}
    (it entities : α → Entities) {previous : Entity} {vs : List Entities}
    (hit : ∀ a ∈ l, ∀ e ∈ it a, P e) (hes : ∀ a ∈ l, ∀ e ∈ entities a, P e) (hp : P previous)
    (hf : l.foldlM (fun (x : List Entities × StandardGrammar) a => do
      let (es, g) ← addModified x.2 (it a) (entities a) previous
      some (x.1 ++ [es], g)) ([], g) = some (vs, g')) :
    G g' ∧ ∀ es ∈ vs, ∀ e ∈ es, P e := by
  refine foldlM_induction
    (P := fun x : List Entities × StandardGrammar => G x.2 ∧ ∀ es ∈ x.1, ∀ e ∈ es, P e)
    hf ⟨h, by simp⟩ ?_
  rintro ⟨vs, g⟩ a ⟨vs', g'⟩ hmem ⟨hg, hvs⟩ hstep
  simp only [Option.bind_eq_bind, Option.bind_eq_some_iff, Option.some.injEq, Prod.mk.injEq] at hstep
  obtain ⟨⟨es, g₁⟩, hadd, rfl, rfl⟩ := hstep
  obtain ⟨hg₁, hnew⟩ := addModified_all hmod hg (hit a hmem) (hes a hmem) hp hadd
  refine ⟨hg₁, fun d hd => ?_⟩
  rcases List.mem_append.mp hd with hd | hd
  · exact hvs d hd
  · rw [List.mem_singleton.mp hd]; exact hnew

omit hmod in
theorem Expansion.All.addSymbol {x : Expansion} (h : x.All G P) {toReplace : Entity}
    (hr : P toReplace) {complete : Bool} :
    Expansion.All G P
      { x with newvalues := x.newvalues.map (· ++ [toReplace]), complete := complete } := by
  refine ⟨h.1, fun es hes e he => ?_⟩
  obtain ⟨vs, hvs, rfl⟩ := List.mem_map.mp hes
  rcases List.mem_append.mp he with he | he
  · exact h.2 vs hvs e he
  · rw [List.mem_singleton.mp he]; exact hr

theorem Expansion.All.expandSymbol {ord : HashOrder} {grammarmap : MultiHashMap Str Entities}
    (hm : grammarmap.All fun _ es => ∀ e ∈ es, P e) {x x' : Expansion} (h : x.All G P)
    {toReplace : Entity} (hr : P toReplace)
    (hx : expandSymbol ord grammarmap x toReplace = some x') : x'.All G P := by
  have hrepl : ∀ es ∈ ord.enum (grammarmap.get toReplace.toKey), ∀ e ∈ es, P e :=
    fun es hes => hm.of_mem_get (ord.mem_enum.mp hes)
  unfold Grammar.expandSymbol at hx
  split at hx
  · split at hx
    · cases hx; exact h
    · rename_i replacement heq
      simp only [Option.bind_eq_bind, Option.bind_eq_some_iff, Option.some.injEq] at hx
      obtain ⟨⟨vs, g⟩, ha, rfl⟩ := hx
      exact foldlM_addModified_all hmod h.1 id (fun _ => replacement) h.2
        (fun _ _ => hrepl _ (by simp [heq])) hr ha
    · rename_i it hone _ _
      simp only [Option.bind_eq_bind, Option.bind_eq_some_iff, Option.some.injEq] at hx
      obtain ⟨⟨vs, g⟩, ha, rfl⟩ := hx
      exact foldlM_addModified_all hmod h.1 (fun _ => it) id
        (fun _ _ => h.2 it (by simp [hone])) hrepl hr ha
    · cases hx; exact h.addSymbol hr
  · cases hx; exact h.addSymbol hr

theorem Expansion.All.expandEntry {ord : HashOrder} {grammarmap : MultiHashMap Str Entities}
    (hm : grammarmap.All fun _ es => ∀ e ∈ es, P e) {g : StandardGrammar} (hg : G g)
    {complete : Bool} {oldvalue : Entities} (hold : ∀ e ∈ oldvalue, P e) {x : Expansion}
    (hx : expandEntry ord grammarmap g complete oldvalue = some x) : x.All G P :=
  foldlM_induction (P := Expansion.All G P) hx ⟨hg, by simp⟩ fun _ e _ he h hstep =>
    h.expandSymbol hmod hm (hold e he) hstep

/-- What modifying a symbol keeps, a step of the expansion keeps. -/
theorem expandStep_all {ord : HashOrder} {g g' : StandardGrammar} {complete : Bool} (hg : G g)
    (hm : g.grammarmap.All fun _ es => ∀ e ∈ es, P e)
    (hx : g.expandStep ord = some (g', complete)) :
    (∃ g₁, G g₁ ∧ g' = { g₁ with grammarmap := g'.grammarmap }) ∧
      g'.grammarmap.All fun _ es => ∀ e ∈ es, P e := by
  simp only [StandardGrammar.expandStep, Option.bind_eq_bind, Option.bind_eq_some_iff,
    Option.some.injEq, Prod.mk.injEq] at hx
  obtain ⟨⟨g₁, c₁, m₁⟩, hf, rfl, rfl⟩ := hx
  have hfold : G g₁ ∧ MultiHashMap.All m₁ fun _ es => ∀ e ∈ es, P e := by
    refine foldlM_induction
      (P := fun x : StandardGrammar × Bool × MultiHashMap Str Entities =>
        G x.1 ∧ x.2.2.All fun _ es => ∀ e ∈ es, P e) hf ⟨hg, fun _ hd => by cases hd⟩ ?_
    rintro ⟨g₂, c₂, m₂⟩ it ⟨g₃, c₃, m₃⟩ hit ⟨hg₂, hm₂⟩ hstep
    simp only [Option.bind_eq_some_iff, Option.some.injEq, Prod.mk.injEq] at hstep
    obtain ⟨x, hx, rfl, rfl, rfl⟩ := hstep
    have hx := Expansion.All.expandEntry hmod hm hg₂ (hm.of_mem_entrySet hit) hx
    exact ⟨hx.1, foldl_induction (P := fun m => MultiHashMap.All m _) hm₂
      fun m v hv hm => hm.put (hx.2 v hv)⟩
  exact ⟨⟨g₁, hfold.1, rfl⟩, hfold.2⟩

end

theorem StandardGrammar.Ok.expandStep {ord : HashOrder} {g g' : StandardGrammar} {complete : Bool}
    (h : g.Ok) (hx : g.expandStep ord = some (g', complete)) : g'.Ok := by
  obtain ⟨⟨g₁, hg₁, heq⟩, hvalues⟩ := expandStep_all (G := StandardGrammar.Ok) (P := Entity.Rhs)
    (fun hg he hf hmod => hg.modifySymbol he hf hmod) h h.values hx
  refine ⟨?_, hvalues⟩
  rw [heq]
  exact hg₁.symbols

theorem StandardGrammar.Ok.expand {ord : HashOrder} {fuel : Nat} {g g' : StandardGrammar}
    (h : g.Ok) (hx : StandardGrammar.expand ord fuel g = some g') : ReduceOk g'.reducemap := by
  induction fuel generalizing g with
  | zero => cases hx
  | succ fuel ih =>
      simp only [StandardGrammar.expand, Option.bind_eq_bind, Option.bind_eq_some_iff] at hx
      obtain ⟨⟨g₁, complete⟩, hs, hx⟩ := hx
      have hg₁ := h.expandStep hs
      dsimp only at hx
      split at hx
      · cases hx; exact (hg₁.buildReducemap ord).2
      · exact ih hg₁ hx

/-- The rules of a grammar that was read from its lines and expanded. -/
theorem readGrammar_ok {ord : HashOrder} {fuel : Nat} {lines : List Str} {g : StandardGrammar}
    (h : readGrammar ord fuel lines = some g) : ReduceOk g.reducemap := by
  simp only [readGrammar, Option.bind_eq_bind, Option.bind_eq_some_iff] at h
  obtain ⟨⟨g₁, key⟩, hl, h⟩ := h
  have hg₁ : g₁.Ok :=
    foldlM_induction (P := fun x : StandardGrammar × Option Entity => x.1.Ok) hl
      StandardGrammar.Ok.empty fun _ _ _ _ h hr => readLine_ok h hr
  dsimp only at h
  split at h
  · rename_i hnil
    subst hnil
    cases hl; cases h
    intro m hm; cases hm
  · exact (hg₁.buildReducemap ord).1.expand h

end Freehal.Grammar
