import Freehal.Grammar.Lemmas.Replace

/-!
# The invariant of the reducer

A sentence that the reducer builds either consists of derivations over the words it started
from, or holds a key with a blank. Such a key is in no right-hand side, so it stays.
-/

namespace Freehal.Grammar
open Lib

/-! ## Sentences -/

/-- A sentence of derivations with the leaves `start`. -/
structure Parsed (R : Str → List Str → Prop) (start : List (Str × Str)) (es : Entities) : Prop where
  wf : ∀ e ∈ es, e.Wf
  derivation : ∀ e ∈ es, Derivation R e
  leaves : yield es = start

/-- A sentence in which the search for keys can go wrong. -/
def Blanked (es : Entities) : Prop := ∃ e ∈ es, ' ' ∈ e.toKey

def SentenceOk (R : Str → List Str → Prop) (start : List (Str × Str)) (es : Entities) : Prop :=
  Blanked es ∨ Parsed R start es

variable {R : Str → List Str → Prop} {start : List (Str × Str)}

theorem Parsed.replaced {pre run post found : Entities} {e : Entity}
    (h : Parsed R start (pre ++ (run ++ post))) (hm : List.Forall₂ Entity.Marked run found)
    (he : e.embed = found) (hw : e.Wf) (hne : found ≠ [])
    (hrule : R e.toKey (run.map Entity.toKey)) : Parsed R start (pre ++ e :: post) := by
  have hd : Derivation R e := by
    refine .node e (he ▸ hne) ?_ ?_
    · rw [he, map_toKey_marked hm]; exact hrule
    · rw [he]
      exact derivation_forall_marked hm fun d hd => h.derivation d (by simp [hd])
  refine ⟨fun d hd' => ?_, fun d hd' => ?_, ?_⟩
  · simp only [List.mem_append, List.mem_cons] at hd'
    rcases hd' with hd' | rfl | hd'
    · exact h.wf d (by simp [hd'])
    · exact hw
    · exact h.wf d (by simp [hd'])
  · simp only [List.mem_append, List.mem_cons] at hd'
    rcases hd' with hd' | rfl | hd'
    · exact h.derivation d (by simp [hd'])
    · exact hd
    · exact h.derivation d (by simp [hd'])
  · have hy : yield [e] = yield run := by
      rw [yield_node (he ▸ hne), he, yield_forall_marked hm]
    rw [← h.leaves, yield_append, yield_append, yield_cons, yield_append, hy]

/-! ## One rule -/

theorem infix_of_allToKey {find vec : Entities} (hf : ∀ f ∈ find, ' ' ∉ f.toKey)
    (hv : ∀ v ∈ vec, ' ' ∉ v.toKey) (hne : find ≠ []) (h : allToKey find <:+: allToKey vec) :
    find.map Entity.toKey <:+: vec.map Entity.toKey := by
  by_cases hnil : vec = []
  · subst hnil
    simp [allToKey, joined, hne, spaced] at h
  · have h : spaced ' ' (find.map Entity.toKey) <:+: spaced ' ' (vec.map Entity.toKey) := by
      simpa [allToKey, joined, hne, hnil] using h
    refine infix_of_spaced_infix ?_ ?_ h
    · intro k hk
      obtain ⟨f, hf', rfl⟩ := List.mem_map.mp hk
      exact hf f hf'
    · intro k hk
      obtain ⟨v, hv', rfl⟩ := List.mem_map.mp hk
      exact hv v hv'

/-- A rule whose key occurs in the sentence. -/
structure Applicable (R : Str → List Str → Prop) (vec : Entities) (rule : Rule) : Prop where
  ok : RuleOk (allToKey rule.2) rule
  occurs : allToKey rule.2 <:+: allToKey vec
  rule : R rule.1.toKey (rule.2.map Entity.toKey)

theorem SentenceOk.replaceInList {vec out : Entities} (h : SentenceOk R start vec) {rule : Rule}
    (hr : Applicable R vec rule) (ho : replaceInList rule.2 rule.1 vec = some out) :
    SentenceOk R start out := by
  have hblank : ∀ f ∈ rule.2, ' ' ∉ f.toKey := fun f hf => (hr.ok.value f hf).blankless.toKey
  by_cases hb : Blanked vec
  · obtain ⟨b, hb, hk⟩ := hb
    exact Or.inl ⟨b, replaceInList_keeps ho hb fun f hf heq => hblank f hf (heq ▸ hk), hk⟩
  have hp : Parsed R start vec := h.resolve_left hb
  have hvec : ∀ v ∈ vec, ' ' ∉ v.toKey := fun v hv hk => hb ⟨v, hv, hk⟩
  have hin := infix_of_allToKey hblank hvec hr.ok.value_ne hr.occurs
  obtain ⟨pre, run, post, found, e, rfl, hk, -, hfound, he, rfl⟩ :=
    replaceInList_full hr.ok.value_ne hin ho
  have hm : List.Forall₂ Entity.Marked run found :=
    foundList_marked (fun v hv => hp.wf v (by simp [hv])) (fun f hf => (hr.ok.value f hf).toSym)
      hk hfound
  obtain rfl := Entity.newEmbed_toStr hr.ok.target he
  have hne : found ≠ [] := by
    have hlen : found.length = rule.2.length := by
      rw [← hm.length_eq, ← List.length_map (f := Entity.toKey), hk, List.length_map]
    intro hnil
    have : rule.2.length = 0 := by rw [← hlen, hnil]; rfl
    exact hr.ok.value_ne (List.length_eq_zero_iff.mp this)
  have hw := hr.ok.target.wf
  exact Or.inr (hp.replaced hm rfl ⟨hw.virt, hw.no_repl, hw.key, hw.order⟩ hne (by
    rw [hk]; exact hr.rule))

/-! ## The states of a step -/

def ReduceState.Ok (R : Str → List Str → Prop) (start : List (Str × Str)) (st : ReduceState) :
    Prop :=
  ∀ d ∈ st.newWordsComplexityMap, ∀ w ∈ d.2.2, SentenceOk R start w.2

theorem ReduceState.Ok.empty : ReduceState.Ok R start {} := fun _ hd => nomatch hd

theorem ReduceState.Ok.improve {st : ReduceState} (h : st.Ok R start) (key : Str) (n : Nat) :
    (st.improve key n).Ok R start := by
  unfold ReduceState.improve
  intro d hd
  dsimp only at hd
  split at hd
  · rcases HashMap.mem_put hd with rfl | hd
    · intro w hw; cases hw
    · exact h d (List.mem_of_mem_filter hd)
  · exact h d hd

theorem recordResult_ok {key : Str} {old new : Entities} {words : HashMap Str Entities}
    (hold : SentenceOk R start old) (hnew : SentenceOk R start new)
    (hw : ∀ w ∈ words, SentenceOk R start w.2) :
    ∀ w ∈ recordResult key old new words, SentenceOk R start w.2 := by
  have hput : ∀ {m : HashMap Str Entities} {es : Entities}, (∀ w ∈ m, SentenceOk R start w.2) →
      SentenceOk R start es → ∀ w ∈ m.put (allToString es) es, SentenceOk R start w.2 := by
    intro m es hm hes w hw
    rcases HashMap.mem_put hw with rfl | hw
    · exact hes
    · exact hm w hw
  unfold recordResult
  split
  · exact hput (hput hw hnew) hold
  · exact hput hw hnew

theorem ReduceState.Ok.applyRule {st st' : ReduceState} (h : st.Ok R start) {vec : Entities}
    (hv : SentenceOk R start vec) {rule : Rule} (hr : Applicable R vec rule)
    (ha : applyRule vec st rule = some st') : st'.Ok R start := by
  unfold Grammar.applyRule at ha
  dsimp only at ha
  split at ha
  · cases ha; exact h
  split at ha
  · cases ha; exact h
  simp only [Option.bind_eq_bind, Option.bind_eq_some_iff, Option.some.injEq] at ha
  obtain ⟨new, hnew, entry, hentry, rfl⟩ := ha
  have himp := h.improve (complexityKey rule.1) rule.2.length
  intro d hd
  rcases HashMap.mem_put hd with rfl | hd
  · exact recordResult_ok hv (hv.replaceInList hr hnew) (himp _ (HashMap.mem_of_get hentry))
  · exact himp d hd

/-! ## The rules of a step -/

variable {g : StandardGrammar}

theorem applicable_of_matchingRules {ord : HashOrder} (hg : ReduceOk g.reducemap)
    {rules : MultiHashMap Str Rule} (hrules : rules ∈ g.reducemap) {vec : Entities}
    {keys : List Str} {rule : Rule} (h : rule ∈ matchingRules ord vec rules keys) :
    Applicable g.HasRule vec rule := by
  simp only [matchingRules, List.mem_flatMap, List.mem_filter, decide_eq_true_eq,
    ord.mem_enum] at h
  obtain ⟨key, ⟨_, hocc⟩, hget⟩ := h
  have hok : RuleOk key rule := (hg rules hrules).of_mem_get hget
  obtain rfl := hok.key_eq
  exact ⟨hok, hocc, rules, hrules, _, rule, hget, rfl, rfl⟩

theorem reduceOrders_ok {ord : HashOrder} (hg : ReduceOk g.reducemap) {vec : Entities}
    (hv : SentenceOk g.HasRule start vec)
    {orders : List (MultiHashMap Str Rule × List Str)} (ho : ∀ o ∈ orders, o.1 ∈ g.reducemap)
    {st st' : ReduceState} (h : st.Ok g.HasRule start)
    (hr : reduceOrders ord vec st orders = some st') : st'.Ok g.HasRule start := by
  induction orders generalizing st with
  | nil => cases hr; exact h
  | cons o orders ih =>
      obtain ⟨rules, keys⟩ := o
      simp only [reduceOrders] at hr
      split at hr
      · cases hr; exact h
      · simp only [Option.bind_eq_bind, Option.bind_eq_some_iff] at hr
        obtain ⟨st₁, hf, hr⟩ := hr
        refine ih (fun o' ho' => ho o' (by simp [ho'])) ?_ hr
        exact foldlM_induction (P := ReduceState.Ok g.HasRule start) hf h fun st rule st' hmem h ha =>
          h.applyRule hv (applicable_of_matchingRules hg (ho _ List.mem_cons_self) hmem) ha

/-! ## Rounds -/

/-- Every sentence of a word list is in order. -/
def WordsOk (R : Str → List Str → Prop) (start : List (Str × Str)) (words : HashMap Str Entities) :
    Prop :=
  ∀ w ∈ words, SentenceOk R start w.2

theorem WordsOk.putAll {m n : HashMap Str Entities} (hm : WordsOk R start m)
    (hn : WordsOk R start n) (ord : HashOrder) : WordsOk R start (m.putAll (ord.enum n)) := by
  intro w hw
  rcases HashMap.mem_putAll hw with hw | hw
  · exact hm w hw
  · exact hn w (ord.mem_enum.mp hw)

theorem reduceStep_ok {ord : HashOrder} (hg : ReduceOk g.reducemap) {vec : Entities}
    (hv : SentenceOk g.HasRule start vec) {words : HashMap Str Entities}
    (h : g.reduceStep ord vec = some words) : WordsOk g.HasRule start words := by
  simp only [StandardGrammar.reduceStep, Option.bind_eq_bind, Option.bind_eq_some_iff,
    Option.some.injEq] at h
  obtain ⟨st, hst, rfl⟩ := h
  have hok : st.Ok g.HasRule start :=
    reduceOrders_ok hg hv (fun o ho => (List.of_mem_zip ho).1) ReduceState.Ok.empty hst
  refine foldl_induction (P := WordsOk g.HasRule start) (fun w hw => nomatch hw) ?_
  exact fun m d hd hm => hm.putAll (hok d (ord.mem_enum.mp hd)) ord

theorem reduceRound_ok {ord : HashOrder} (hg : ReduceOk g.reducemap)
    {words words' : HashMap Str Entities} (hw : WordsOk g.HasRule start words)
    (h : g.reduceRound ord words = some words') : WordsOk g.HasRule start words' := by
  refine foldlM_induction (P := WordsOk g.HasRule start) h (fun w hw => nomatch hw) ?_
  intro m d m' hd hm hstep
  simp only [Option.bind_eq_bind, Option.bind_eq_some_iff, Option.some.injEq] at hstep
  obtain ⟨new, hnew, rfl⟩ := hstep
  exact hm.putAll (reduceStep_ok hg (hw d (ord.mem_enum.mp hd)) hnew) ord

theorem reduceLoop_ok {ord : HashOrder} (hg : ReduceOk g.reducemap) {steps : Nat}
    {words : HashMap Str Entities} (hw : WordsOk g.HasRule start words) {final out : List Entities}
    (hf : ∀ es ∈ final, SentenceOk g.HasRule start es ∧ isDone es)
    (h : g.reduceLoop ord steps words final = some out) :
    ∀ es ∈ out, SentenceOk g.HasRule start es ∧ isDone es := by
  induction steps generalizing words final with
  | zero => cases h; exact hf
  | succ steps ih =>
      simp only [StandardGrammar.reduceLoop] at h
      split at h
      · cases h; exact hf
      · simp only [Option.bind_eq_bind, Option.bind_eq_some_iff] at h
        obtain ⟨words', hround, h⟩ := h
        have hw' := reduceRound_ok hg hw hround
        refine ih hw' (fun es hes => ?_) h
        rcases List.mem_append.mp hes with hes | hes
        · exact hf es hes
        · obtain ⟨hmem, hdone⟩ := List.mem_filter.mp hes
          obtain ⟨d, hd, rfl⟩ := List.mem_map.mp hmem
          exact ⟨hw' d (ord.mem_enum.mp hd), hdone⟩

/-- A finished sentence holds no blank, so it is parsed. -/
theorem SentenceOk.done {es : Entities} (h : SentenceOk R start es) (hd : isDone es) :
    ∃ e, es = [e] ∧ e.toKey = "s-all".toList ∧ Parsed R start es := by
  unfold isDone at hd
  split at hd
  · rename_i e
    have hk : e.toKey = "s-all".toList := by simpa using hd
    refine ⟨e, rfl, hk, h.resolve_left ?_⟩
    rintro ⟨d, hd', hb⟩
    rw [List.mem_singleton.mp hd', hk] at hb
    exact absurd hb (by decide)
  · cases hd

end Freehal.Grammar
