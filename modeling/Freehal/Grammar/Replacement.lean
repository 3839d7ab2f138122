import Freehal.Lib.Fold
import Freehal.Grammar.Theorems

/-!
# Exact replacement

A rule whose key is found in the text of the keys of a sentence replaces its first full run if and
only if there is such a run. A blank inside a key lets the search find what no run spells.
-/

namespace Freehal.Grammar
open Lib

/-- The first run of `vec` with the keys of `find` is replaced by one entity of the target that
embeds the run. The entities of the run get the markers of the rule. -/
def ReplacesRun (find : Entities) (target : Entity) (vec out : Entities) : Prop :=
  ∃ pre run post found, vec = pre ++ (run ++ post) ∧
    run.map Entity.toKey = find.map Entity.toKey ∧
    (∀ n < pre.length, ¬ find.map Entity.toKey <+: (vec.drop n).map Entity.toKey) ∧
    List.Forall₂ Entity.Marked run found ∧ out = pre ++ { target with embed := found } :: post

theorem ReplacesRun.keys_infix {find vec out : Entities} {target : Entity}
    (h : ReplacesRun find target vec out) :
    find.map Entity.toKey <:+: vec.map Entity.toKey := by
  obtain ⟨pre, run, post, found, rfl, hk, -⟩ := h
  refine ⟨pre.map Entity.toKey, post.map Entity.toKey, ?_⟩
  rw [← hk]
  simp

/-! ## Replacing never fails -/

theorem foundList_total {find : Entities} (hf : ∀ f ∈ find, f.Sym) (vec : Entities) :
    ∃ found, foundList vec find = some found := by
  induction find generalizing vec with
  | nil => cases vec <;> exact ⟨[], rfl⟩
  | cons f find ih =>
      cases vec with
      | nil => exact ⟨[], rfl⟩
      | cons v vec =>
          obtain ⟨e, he⟩ := (hf f (by simp)).modify_total v
          obtain ⟨found, hfound⟩ := ih (fun g hg => hf g (by simp [hg])) vec
          exact ⟨e :: found, by simp [foundList, he, hfound]⟩

theorem replaceInList_total {find : Entities} {target : Entity} (hf : ∀ f ∈ find, f.Sym)
    (ht : target.Sym) (vec : Entities) : ∃ out, replaceInList find target vec = some out := by
  induction vec with
  | nil => exact ⟨[], rfl⟩
  | cons v vec ih =>
      cases find with
      | nil => exact ⟨_, rfl⟩
      | cons f fs =>
          obtain ⟨found, hfound⟩ := foundList_total hf (v :: vec)
          obtain ⟨out, hout⟩ := ih
          simp only [replaceInList]
          split
          · exact ⟨_, by
              rw [replaceRun, hfound, Option.bind_eq_bind, Option.bind_some, Entity.newEmbed,
                Entity.new_toStr ht.wf ht.plain]
              rfl⟩
          · exact ⟨v :: out, by rw [hout]; rfl⟩

/-! ## One replacement -/

theorem replaceInList_replacesRun {key : Str} {rule : Rule} (hr : RuleOk key rule)
    {vec : Entities} (hv : ∀ v ∈ vec, v.Wf)
    (hin : rule.2.map Entity.toKey <:+: vec.map Entity.toKey) :
    ∃ out, replaceInList rule.2 rule.1 vec = some out ∧ ReplacesRun rule.2 rule.1 vec out := by
  have hsym : ∀ f ∈ rule.2, f.Sym := fun f hf => (hr.value f hf).toSym
  obtain ⟨out, hout⟩ := replaceInList_total hsym hr.target vec
  obtain ⟨pre, run, post, found, e, rfl, hk, hfirst, hfound, he, rfl⟩ :=
    replaceInList_full hr.value_ne hin hout
  obtain rfl := Entity.newEmbed_toStr hr.target he
  have hmarked := foundList_marked (fun v hmem => hv v (by simp [hmem])) hsym hk hfound
  exact ⟨_, hout, pre, run, post, found, rfl, hk, hfirst, hmarked, rfl⟩

/-- The containment test is passed. The first full run is replaced and the rest is kept exactly if
the keys of the rule are a run of the keys of the list, and they are one where no key of the list
has a blank. -/
theorem replaceInList_exact_iff {ord : HashOrder} {fuel : Nat} {lines : List Str}
    {g : StandardGrammar} (hg : readGrammar ord fuel lines = some g)
    {rules : MultiHashMap Str Rule} (hrules : rules ∈ g.reducemap) {key : Str} {rule : Rule}
    (hrule : rule ∈ rules.get key) {vec : Entities} (hv : ∀ v ∈ vec, v.Wf)
    (hcontains : key <:+: allToKey vec) :
    ((∃ out, replaceInList rule.2 rule.1 vec = some out ∧ ReplacesRun rule.2 rule.1 vec out)
      ↔ rule.2.map Entity.toKey <:+: vec.map Entity.toKey) ∧
    ((∀ v ∈ vec, ' ' ∉ v.toKey) → rule.2.map Entity.toKey <:+: vec.map Entity.toKey) := by
  have hr : RuleOk key rule := (readGrammar_ok hg rules hrules).of_mem_get hrule
  refine ⟨⟨?_, replaceInList_replacesRun hr hv⟩, fun hblank => ?_⟩
  · rintro ⟨out, -, hout⟩
    exact hout.keys_infix
  · rw [hr.key_eq] at hcontains
    exact infix_of_allToKey (fun f hf => (hr.value f hf).blankless.toKey) hblank hr.value_ne
      hcontains

theorem newSentence_wf {texts : List Str} {es : Entities} (h : texts.mapM Entity.new = some es) :
    ∀ e ∈ es, e.Wf := by
  intro e he
  obtain ⟨t, -, ht⟩ := forall₂_mem_right (mapM_eq_some_iff.mp h) he
  exact (Entity.new_wf ht).1

/-- A sentence with two noun phrases, of which the rule takes the first one. -/
theorem replaceInList_exact_first : ∃ g rules rule vec,
    readGrammar HashOrder.insertion 5 nounGrammar = some g ∧ rules ∈ g.reducemap ∧
      rule ∈ rules.get " d-noun ".toList ∧
      ["d-^".toList, "d-noun".toList, "d-noun".toList].mapM Entity.new = some vec ∧
      ((∃ out, replaceInList rule.2 rule.1 vec = some out ∧ ReplacesRun rule.2 rule.1 vec out)
        ↔ rule.2.map Entity.toKey <:+: vec.map Entity.toKey) ∧
      ((∀ v ∈ vec, ' ' ∉ v.toKey) → rule.2.map Entity.toKey <:+: vec.map Entity.toKey) := by
  have hrun : (readGrammar HashOrder.insertion 5 nounGrammar).any fun g =>
      (["d-^".toList, "d-noun".toList, "d-noun".toList].mapM Entity.new).any fun vec =>
        g.reducemap.any fun rules => (rules.get " d-noun ".toList).any fun _ =>
          decide (" d-noun ".toList <:+: allToKey vec) := by
    decide +kernel
  simp only [Option.any_eq_true, List.any_eq_true, decide_eq_true_eq] at hrun
  obtain ⟨g, hg, vec, hvec, rules, hrules, rule, hrule, hcontains⟩ := hrun
  exact ⟨g, rules, rule, vec, hg, hrules, hrule, hvec,
    replaceInList_exact_iff hg hrules hrule (newSentence_wf hvec) hcontains⟩

/-- The name of one of the phrases has a blank. -/
def blankGrammar : List Str :=
  ["s-all:", "  d-^ s-b", "s-a d-noun:", "  d-verb", "s-a:", "  d-article d-$", "s-b:",
    "  s-a d-noun"].map String.toList

/-- The search finds the key of the rule inside one entity and the beginning of the next, and the
run that is cut by the end of the list is replaced. -/
theorem replaceInList_cut_run : ¬ ∀ (ord : HashOrder) (fuel : Nat) (lines : List Str)
    (g : StandardGrammar), readGrammar ord fuel lines = some g → ∀ rules ∈ g.reducemap,
    ∀ key, ∀ rule ∈ rules.get key, ∀ vec : Entities, (∀ v ∈ vec, v.Wf) → key <:+: allToKey vec →
      ∃ out, replaceInList rule.2 rule.1 vec = some out ∧ ReplacesRun rule.2 rule.1 vec out := by
  intro hall
  have hrun : (readGrammar HashOrder.insertion 5 blankGrammar).any fun g =>
      (["d-^".toList, "s-a d-noun".toList, "s-a".toList].mapM Entity.new).any fun vec =>
        g.reducemap.any fun rules => (rules.get " s-a d-noun ".toList).any fun rule =>
          decide (" s-a d-noun ".toList <:+: allToKey vec ∧
            ¬ rule.2.map Entity.toKey <:+: vec.map Entity.toKey) := by
    decide +kernel
  simp only [Option.any_eq_true, List.any_eq_true, decide_eq_true_eq] at hrun
  obtain ⟨g, hg, vec, hvec, rules, hrules, rule, hrule, hcontains, hno⟩ := hrun
  obtain ⟨out, -, hout⟩ := hall _ _ _ g hg rules hrules _ rule hrule vec (newSentence_wf hvec)
    hcontains
  exact hno hout.keys_infix

end Freehal.Grammar
