import Freehal.Pos.Endings

/-!
# Rewriting a verb

The replacements of `GermanTagger.toggle`: the first one that changes the word counts. A word comes
back from `rewrite` exactly where its ending is in a pair whose members are rewritten into each
other.
-/

namespace Freehal.Pos

/-! ## Whole words -/

/-- The word without the line terminator at its end, read from the end on, and the terminator. -/
def splitEnd (text : Str) : Str × Str :=
  match text.reverse with
  | [] => ([], [])
  | c :: back =>
      if c = '\n' ∧ back.head? = some '\r' then (back.tail, ['\r', '\n'])
      else if isTerminator c then (back, [c])
      else (c :: back, [])

/-- `RegexUtils.replace` with a rule. `$` also stands in front of a line terminator at the end. -/
def EndRule.replace (rule : EndRule) (text : Str) : Str :=
  match rule.apply (splitEnd text).1 with
  | some back => back.reverse ++ (splitEnd text).2
  | none => text

/-- `RegexUtils.replace` of `sss` by `ss`. -/
def replaceSss : Str → Str
  | 's' :: 's' :: 's' :: text => 's' :: 's' :: replaceSss text
  | c :: text => c :: replaceSss text
  | [] => []

def replacements : List (Str → Str) := endRules.map EndRule.replace ++ [replaceSss]

/-- The word after the first replacement that changes it. -/
def rewrite (text : Str) : Str :=
  replacements.foldl (fun newWord replace => if newWord = text then replace text else newWord) text

theorem splitEnd_eq (text : Str) : (splitEnd text).1.reverse ++ (splitEnd text).2 = text := by
  rw [← List.reverse_reverse text]
  generalize text.reverse = back
  rw [splitEnd, List.reverse_reverse]
  match back with
  | [] => rfl
  | c :: back =>
      by_cases hc : c = '\n' ∧ back.head? = some '\r'
      · obtain ⟨rfl, hb⟩ := hc
        obtain ⟨r, rfl⟩ := List.head?_eq_some_iff.mp hb
        simp
      · by_cases ht : isTerminator c = true <;> simp [hc, ht]

theorem isTerminator_of_mem {text : Str} {c : Char} (h : c ∈ (splitEnd text).2) :
    isTerminator c = true := by
  rw [splitEnd.eq_def] at h
  split at h
  · cases h
  · split at h
    · rcases List.mem_pair.mp h with rfl | rfl <;> rfl
    · split at h
      · next ht => rwa [List.mem_singleton.mp h]
      · cases h

/-- A terminator stays one behind another letter. -/
theorem splitEnd_append (text : Str) {c : Char} {back : Str} (hc : isDot c = true) :
    splitEnd ((c :: back).reverse ++ (splitEnd text).2) = (c :: back, (splitEnd text).2) := by
  have hc' : isTerminator c = false := by simpa [isDot] using hc
  have hcr : c ≠ '\r' := by rintro rfl; cases hc
  have hlf : c ≠ '\n' := by rintro rfl; cases hc
  rw [splitEnd.eq_def text]
  match text.reverse with
  | [] => simp [splitEnd, hlf, hc']
  | d :: rest =>
      by_cases hd : d = '\n' ∧ rest.head? = some '\r'
      · simp [splitEnd, hd]
      · by_cases ht : isTerminator d = true
        · simp [splitEnd, hd, ht, hcr]
        · simp [splitEnd, hd, ht, hlf, hc']

theorem endRules_last : ∀ rule ∈ endRules, rule.ending ≠ [] ∧ rule.replacement ≠ [] ∧
    rule.replacement.getLast? ≠ rule.ending.getLast? := by
  decide

theorem EndRule.apply_ne {rule : EndRule} (hr : rule ∈ endRules) {back back' : Str}
    (h : rule.apply back = some back') : back' ≠ back := by
  obtain ⟨he, hn, hlast⟩ := endRules_last rule hr
  rw [EndRule.apply] at h
  split at h
  · next hm =>
      rw [EndRule.matches, Bool.and_eq_true, List.isPrefixOf_iff_prefix] at hm
      obtain ⟨⟨s, rfl⟩, _⟩ := hm
      rintro rfl
      have hh := congrArg List.head? (Option.some.inj h)
      rw [List.head?_append_of_ne_nil _ (by simpa using hn),
        List.head?_append_of_ne_nil _ (by simpa using he), List.head?_reverse,
        List.head?_reverse] at hh
      exact hlast hh
  · cases h

theorem foldl_replacements {text newWord : Str} (h : newWord ≠ text) (fs : List (Str → Str)) :
    fs.foldl (fun newWord replace => if newWord = text then replace text else newWord) newWord =
      newWord := by
  induction fs with
  | nil => rfl
  | cons f fs ih => rw [List.foldl_cons, if_neg h, ih]

theorem foldl_rules (text : Str) (last : Str → Str) {rules : List EndRule}
    (h : ∀ rule ∈ rules, rule ∈ endRules) :
    (rules.map EndRule.replace ++ [last]).foldl
        (fun newWord replace => if newWord = text then replace text else newWord) text =
      match rules.findSome? (·.apply (splitEnd text).1) with
      | some back => back.reverse ++ (splitEnd text).2
      | none => last text := by
  induction rules with
  | nil => simp
  | cons rule rules ih =>
      have ih := ih fun r hr => h r (List.mem_cons_of_mem _ hr)
      rw [List.map_cons, List.cons_append, List.foldl_cons, if_pos rfl, List.findSome?_cons,
        EndRule.replace]
      cases ha : rule.apply (splitEnd text).1 with
      | none => exact ih
      | some back =>
          have hne : back.reverse ++ (splitEnd text).2 ≠ text := by
            intro heq
            have hback := List.append_cancel_right (heq.trans (splitEnd_eq text).symm)
            exact EndRule.apply_ne (h rule (by simp)) ha (List.reverse_injective hback)
          exact foldl_replacements hne _

/-- The last replacement is tried only where no rule matches. -/
theorem rewrite_eq (text : Str) : rewrite text =
    match rewriteEnd (splitEnd text).1 with
    | some back => back.reverse ++ (splitEnd text).2
    | none => replaceSss text :=
  foldl_rules text replaceSss fun _ h => h

theorem length_replaceSss_le (text : Str) : (replaceSss text).length ≤ text.length := by
  fun_induction replaceSss text with
  | case1 text ih =>
      simp only [List.length_cons]
      omega
  | case2 c text _ ih => simpa using ih
  | case3 => simp

theorem count_replaceSss (text : Str) : (replaceSss text).count 't' = text.count 't' := by
  fun_induction replaceSss text with
  | case1 text ih => simpa using ih
  | case2 c text _ ih => rw [List.count_cons, List.count_cons, ih]
  | case3 => rfl

theorem replaceSss_of_noSss {text : Str} (h : ¬ "sss".toList <:+: text) :
    replaceSss text = text := by
  fun_induction replaceSss text with
  | case1 text ih => exact (h ⟨[], text, rfl⟩).elim
  | case2 c text _ ih => rw [ih fun hi => h (List.infix_cons hi)]
  | case3 => rfl

theorem length_replaceSss_lt {text : Str} (h : "sss".toList <:+: text) :
    (replaceSss text).length < text.length := by
  fun_induction replaceSss text with
  | case1 text ih =>
      have := length_replaceSss_le text
      simp only [List.length_cons]
      omega
  | case2 c text hc ih =>
      rcases List.infix_cons_iff.mp h with hp | hi
      · obtain ⟨s, hs⟩ := hp
        injection hs with hcs hs
        exact (hc s hcs.symm hs.symm).elim
      · simpa using ih hi
  | case3 => simp at h

/-! ## What is exchanged -/

/-- The relation holds in front of the same line terminator. -/
def AtEnd (r : Str → Str → Prop) (text text' : Str) : Prop :=
  r (splitEnd text).1 (splitEnd text').1 ∧ (splitEnd text).2 = (splitEnd text').2

def NoRule (text : Str) : Prop := ∀ rule ∈ endRules, rule.matches (splitEnd text).1 = false

/-- The replacements change the first word into the other one. -/
def Turns (text text' : Str) : Prop :=
  AtEnd Rewrites text text' ∨ NoRule text ∧ "sss".toList <:+: text ∧ text' = replaceSss text

/-- No replacement changes the word. -/
def Untouched (text : Str) : Prop := NoRule text ∧ ¬ "sss".toList <:+: text

theorem noRule_iff {text : Str} : NoRule text ↔ rewriteEnd (splitEnd text).1 = none := by
  simp [NoRule, rewriteEnd, EndRule.apply]

theorem atEnd_rewrites_iff {text text' : Str} : AtEnd Rewrites text text' ↔
    ∃ back, Rewrites (splitEnd text).1 back ∧ text' = back.reverse ++ (splitEnd text).2 := by
  constructor
  · rintro ⟨hr, ht⟩
    exact ⟨_, hr, by rw [ht, splitEnd_eq]⟩
  · rintro ⟨back, hr, rfl⟩
    obtain ⟨c, s, rfl, hc⟩ := hr.isDot_head
    rw [AtEnd, splitEnd_append text hc]
    exact ⟨hr, rfl⟩

theorem AtEnd.count_ne {text text' : Str} (h : AtEnd Rewrites text text') :
    text'.count 't' ≠ text.count 't' := by
  have hne := h.1.count_ne
  have hcount (s : Str) : s.count 't' = (splitEnd s).1.count 't' + (splitEnd s).2.count 't' := by
    conv_lhs => rw [← splitEnd_eq s, List.count_append, List.count_reverse]
  have hterm := congrArg (List.count 't') h.2
  rw [hcount text, hcount text']
  omega

theorem AtEnd.ne {text text' : Str} (h : AtEnd Rewrites text text') : text' ≠ text := by
  rintro rfl
  exact h.count_ne rfl

theorem turns_iff {text text' : Str} : Turns text text' ↔ rewrite text = text' ∧ text' ≠ text := by
  rw [rewrite_eq]
  cases hb : rewriteEnd (splitEnd text).1 with
  | some back =>
      have hr := rewriteEnd_eq_some.mp hb
      have hno : ¬ NoRule text := by
        rw [noRule_iff, hb]
        exact Option.some_ne_none back
      constructor
      · rintro (hend | ⟨hn, _⟩)
        · obtain ⟨back', hr', rfl⟩ := atEnd_rewrites_iff.mp hend
          rw [← rewriteEnd_eq_some, hb, Option.some.injEq] at hr'
          exact ⟨by rw [hr'], hend.ne⟩
        · exact (hno hn).elim
      · rintro ⟨rfl, _⟩
        exact .inl (atEnd_rewrites_iff.mpr ⟨back, hr, rfl⟩)
  | none =>
      constructor
      · rintro (⟨hr, _⟩ | ⟨_, hs, rfl⟩)
        · rw [← rewriteEnd_eq_some, hb] at hr
          cases hr
        · exact ⟨rfl, fun heq => (length_replaceSss_lt hs).ne (congrArg List.length heq)⟩
      · rintro ⟨rfl, hne⟩
        exact .inr ⟨noRule_iff.mpr hb, not_imp_comm.mp replaceSss_of_noSss hne, rfl⟩

theorem rewrite_self_iff {text : Str} : rewrite text = text ↔ Untouched text := by
  rw [Untouched, noRule_iff, rewrite_eq]
  cases hb : rewriteEnd (splitEnd text).1 with
  | some back =>
      have hr := rewriteEnd_eq_some.mp hb
      have hne := (atEnd_rewrites_iff.mpr ⟨back, hr, rfl⟩).ne
      simp [hne]
  | none =>
      refine ⟨fun h => ⟨rfl, fun hs => ?_⟩, fun h => replaceSss_of_noSss h.2⟩
      exact (length_replaceSss_lt hs).ne (congrArg List.length h)

/-- A word comes back exactly from the other member of its pair. -/
theorem turns_back_iff {text text' : Str} (h : Turns text text') :
    Turns text' text ↔ AtEnd Swaps text text' := by
  refine ⟨fun h' => ?_, fun hs => .inl ⟨hs.1.symm.rewrites, hs.2.symm⟩⟩
  rcases h with hend | ⟨_, hsss, rfl⟩
  · rcases h' with hend' | ⟨_, _, htext⟩
    · exact ⟨swaps_of_rewrites hend.1 hend'.1 rfl rfl, hend.2⟩
    · have hc := count_replaceSss text'
      rw [← htext] at hc
      exact (hend.count_ne hc.symm).elim
  · rcases h' with hend' | ⟨_, hsss', htext⟩
    · exact (hend'.count_ne (count_replaceSss text).symm).elim
    · have hlt := length_replaceSss_lt hsss
      have hlt' := length_replaceSss_lt hsss'
      rw [← htext] at hlt'
      omega

end Freehal.Pos
