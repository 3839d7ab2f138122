import Freehal.Grammar.Language
import Freehal.Grammar.Lemmas.Reduce

/-!
# Main theorems on the grammar

The notation of symbols, the language of a grammar that is expanded, and soundness of the parser.
-/

namespace Freehal.Grammar
open Lib

/-! ## Symbols -/

/-- Every symbol that is accepted reads back from the text that it prints, whatever it consists
of. -/
theorem new_toStr_of_new {text : Str} {e : Entity} (h : Entity.new text = some e) :
    Entity.new e.toStr = some e := by
  obtain ⟨hwf, hplain⟩ := Entity.new_wf h
  exact Entity.new_toStr hwf hplain

/-- The symbol `virt1/s-np/2/r-x/virt2`, whose second prefixed part is ignored. -/
def markedSymbol : Entity where
  symbol := "s-np".toList
  virt := ["virt1".toList, "virt2".toList]
  order := 2

theorem new_toStr_of_new_marked : Entity.new markedSymbol.toStr = some markedSymbol := by
  have h : Entity.new "virt1/s-np/2/r-x/virt2".toList = some markedSymbol := by decide +kernel
  exact new_toStr_of_new h

/-! ## Expanding a grammar -/

/-- One step leaves the language of every symbol as it is, and so does the whole run, which
ends. -/
theorem expand_language {ord : HashOrder} {g : StandardGrammar} (hg : Reached ord g)
    (helements : ElementsOk g.grammarmap) (hacyclic : Acyclic (rules g.grammarmap)) :
    (∃ g' complete, g.expandStep ord = some (g', complete) ∧ ∀ key word,
      Language (rules g'.grammarmap) key word ↔ Language (rules g.grammarmap) key word) ∧
    ∃ bound, ∀ fuel, bound < fuel → ∃ g', StandardGrammar.expand ord fuel g = some g' ∧
      ∀ key word, Language (rules g'.grammarmap) key word ↔
        Language (rules g.grammarmap) key word := by
  have hsound : g.Sound := ⟨hg.ok.1, hg.ok.2, helements⟩
  obtain ⟨g', complete, hstep, -, hexpansion, -⟩ := hsound.expandStep ord
  refine ⟨⟨g', complete, hstep, fun key word => hexpansion.language_iff⟩, ?_⟩
  obtain ⟨w, hpos, hw⟩ := exists_weight_of_acyclic hacyclic
  obtain ⟨b, hb⟩ := exists_bound (g.grammarmap.flatMap (·.2)) fun es => weight w (form es)
  refine ⟨b, expand_of_weight hpos ord b hsound hw ?_⟩
  rintro v f ⟨es, hes, rfl⟩
  obtain ⟨vs, hvs, hes⟩ := MultiHashMap.mem_get hes
  exact hb es (List.mem_flatMap.mpr ⟨_, hvs, hes⟩)

/-- Some adjectives in front of a noun. -/
def adjectiveGrammar : List Str :=
  ["s-np:", "  r-adjs d-noun", "r-adjs:", "  r-adj", "  r-adj d-komma r-adj", "r-adj:",
    "  d-adjective", "  d-participle"].map String.toList

theorem expand_language_adjectives : ∃ g,
    (adjectiveGrammar.foldlM readLine ({}, none)).map (·.1) = some g ∧
    (∃ g' complete, g.expandStep HashOrder.insertion = some (g', complete) ∧ ∀ key word,
      Language (rules g'.grammarmap) key word ↔ Language (rules g.grammarmap) key word) ∧
    ∃ bound, ∀ fuel, bound < fuel →
      ∃ g', StandardGrammar.expand HashOrder.insertion fuel g = some g' ∧ ∀ key word,
        Language (rules g'.grammarmap) key word ↔ Language (rules g.grammarmap) key word := by
  let rank : Str → Nat := fun key =>
    if key = "s-np".toList then 2 else if key = "r-adjs".toList then 1 else 0
  have hrun : (adjectiveGrammar.foldlM readLine ({}, none)).any fun state => decide
      ((∀ d ∈ state.1.grammarmap, ∀ es ∈ d.2, ∀ e ∈ es, ElementOk state.1.grammarmap d.1 e) ∧
        ∀ d ∈ state.1.grammarmap, ∀ es ∈ d.2, ∀ e ∈ es, e.type = some 'r' →
          rank e.toKey < rank d.1) := by
    decide +kernel
  cases hread : adjectiveGrammar.foldlM readLine ({}, none) with
  | none =>
      rw [hread] at hrun
      cases hrun
  | some state =>
      rw [hread] at hrun
      obtain ⟨hok, hrank⟩ := of_decide_eq_true hrun
      exact ⟨state.1, rfl, expand_language (.read hread) (elementsOk_of_forall hok)
        (acyclic_of_forall rank hrank)⟩

/-- A symbol that is only a marker takes the name of the `r-` symbol it replaces. -/
def markerGrammar : List Str := ["s-b:", "  r-a", "r-a:", "  v-x d-n"].map String.toList

def markerMap : MultiHashMap Str Entities :=
  [("s-b".toList, [[{ repl := "r-a".toList }]]),
    ("r-a".toList, [[{ virt := ["v-x".toList] }, { data := "d-n".toList }]])]

/-- `markerMap` after a step. -/
def markerMapExpanded : MultiHashMap Str Entities :=
  [("s-b".toList, [[{ repl := "r-a".toList, virt := ["v-x".toList] }, { data := "d-n".toList }]]),
    ("r-a".toList, [[{ virt := ["v-x".toList] }, { data := "d-n".toList }]])]

theorem rules_markerMap {key : Str} {f : List (Str ⊕ Str)} (h : rules markerMap key f) :
    (key = "s-b".toList ∧ f = [.inl "r-a".toList]) ∨
      (key = "r-a".toList ∧ f = [.inr "null".toList, .inr "d-n".toList]) := by
  obtain ⟨es, hes, rfl⟩ := h
  obtain ⟨vs, hvs, hes⟩ := MultiHashMap.mem_get hes
  simp only [markerMap, List.mem_cons, Prod.mk.injEq, List.not_mem_nil, or_false] at hvs
  rcases hvs with ⟨rfl, rfl⟩ | ⟨rfl, rfl⟩
  · rw [List.mem_singleton.mp hes]
    exact Or.inl ⟨rfl, rfl⟩
  · rw [List.mem_singleton.mp hes]
    exact Or.inr ⟨rfl, rfl⟩

theorem language_markerMap {word : List Str}
    (h : Language (rules markerMap) "s-b".toList word) : word.length = 2 := by
  have hne : ¬ "r-a".toList = "s-b".toList := by decide
  have hne' : ¬ "s-b".toList = "r-a".toList := by decide
  obtain ⟨f, hrule, n, hw⟩ := h
  obtain ⟨-, rfl⟩ := (rules_markerMap hrule).resolve_right fun hr => hne' hr.1
  cases hw with
  | var hrule hw hrest =>
      obtain ⟨-, rfl⟩ := (rules_markerMap hrule).resolve_left fun hr => hne hr.1
      cases hrest
      cases hw with
      | letter hw =>
          cases hw with
          | letter hw =>
              cases hw
              rfl

theorem language_markerMapExpanded : Language (rules markerMapExpanded) "s-b".toList
    ["null".toList, "d-n".toList, "d-n".toList] := by
  have hb : rules markerMapExpanded "s-b".toList [.inl "r-a".toList, .inr "d-n".toList] :=
    ⟨_, List.mem_singleton_self _, rfl⟩
  have ha : rules markerMapExpanded "r-a".toList [.inr "null".toList, .inr "d-n".toList] :=
    ⟨_, List.mem_singleton_self _, rfl⟩
  exact ⟨_, hb, _, .var ha (.letter (.letter .nil)) (.letter .nil)⟩

/-- A symbol without a name becomes another symbol when it is marked. -/
theorem expandStep_not_language : ¬ ∀ (ord : HashOrder) (g g' : StandardGrammar)
    (complete : Bool), Reached ord g →
    (∀ key, ∀ es ∈ g.grammarmap.get key, ∀ e ∈ es, e.type = some 'r' →
      g.grammarmap.get e.toKey ≠ [] ∧ e.order < 0) →
    Acyclic (rules g.grammarmap) → g.expandStep ord = some (g', complete) → ∀ key word,
      Language (rules g'.grammarmap) key word ↔ Language (rules g.grammarmap) key word := by
  intro hall
  have hrun : (markerGrammar.foldlM readLine ({}, none)).any fun state =>
      (state.1.expandStep HashOrder.insertion).any fun x =>
        decide (state.1.grammarmap = markerMap ∧ x.1.grammarmap = markerMapExpanded) := by
    decide +kernel
  simp only [Option.any_eq_true, decide_eq_true_eq] at hrun
  obtain ⟨⟨g, key⟩, hread, ⟨g', complete⟩, hstep, hold, hnew⟩ := hrun
  dsimp only at hstep hold hnew
  have hacyclic : Acyclic (rules g.grammarmap) := by
    rw [hold]
    exact acyclic_of_forall (fun key => if key = "s-b".toList then 1 else 0) (by decide +kernel)
  have hdefined : ∀ key, ∀ es ∈ g.grammarmap.get key, ∀ e ∈ es, e.type = some 'r' →
      g.grammarmap.get e.toKey ≠ [] ∧ e.order < 0 := by
    have hcheck : ∀ d ∈ markerMap, ∀ es ∈ d.2, ∀ e ∈ es, e.type = some 'r' →
        markerMap.get e.toKey ≠ [] ∧ e.order < 0 := by
      decide +kernel
    rw [hold]
    intro key es hes
    obtain ⟨vs, hvs, hes⟩ := MultiHashMap.mem_get hes
    exact hcheck _ hvs es hes
  have hlanguage := hall _ g g' complete (.read hread) hdefined hacyclic hstep "s-b".toList
    ["null".toList, "d-n".toList, "d-n".toList]
  rw [hold, hnew] at hlanguage
  exact absurd (language_markerMap (hlanguage.mp language_markerMapExpanded)) (by decide)

/-! ## The sentence that a parse starts from -/

theorem newText_spec {cls text : Str} {e : Entity} (h : Entity.newText cls text = some e) :
    e.Wf ∧ e.embed = [] := by
  simp only [Entity.newText, Option.map_eq_some_iff] at h
  obtain ⟨e, hn, rfl⟩ := h
  obtain ⟨hw, hp⟩ := Entity.new_wf hn
  exact ⟨⟨hw.virt, hw.no_repl, hw.key, hw.order⟩, hp.2⟩

theorem parseInput_spec {words : List Word} {es : Entities} (h : parseInput words = some es) :
    ∀ e ∈ es, e.Wf ∧ e.embed = [] := by
  unfold parseInput at h
  generalize inputTokens words = tokens at h
  induction tokens generalizing es with
  | nil => cases h; simp
  | cons t tokens ih =>
      simp only [List.mapM_cons, Option.bind_eq_bind, Option.bind_eq_some_iff, Option.pure_def,
        Option.some.injEq] at h
      obtain ⟨e, he, es', hes, rfl⟩ := h
      intro d hd
      rcases List.mem_cons.mp hd with rfl | hd
      · exact newText_spec he
      · exact ih hes d hd

theorem Parsed.input {R : Str → List Str → Prop} {words : List Word} {es : Entities}
    (h : parseInput words = some es) : Parsed R (es.map Entity.token) es :=
  ⟨fun e he => (parseInput_spec h e he).1, fun e he => .leaf e (parseInput_spec h e he).2,
    yield_eq_map fun e he => (parseInput_spec h e he).2⟩

/-! ## Soundness -/

/-- A noun phrase with one optional adjective. -/
def nounGrammar : List Str :=
  ["s-all:", "  d-^ s-np d-$", "s-np:", "  r-adj d-noun", "  d-noun", "r-adj:", "  d-adjective"].map
    String.toList

def greenHouse : List Word :=
  [⟨"green".toList, some ⟨some "adj".toList, false⟩⟩, ⟨"house".toList, some ⟨some "n".toList, false⟩⟩]

end Freehal.Grammar
