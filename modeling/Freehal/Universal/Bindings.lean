import Freehal.Lib.Occurrences
import Freehal.Universal.Variables

/-!
# Variables and the questions they were matched in

The bindings of earlier questions stay in front of those of a question.
-/

namespace Freehal.Universal
open Lib

variable {b : Binding} {bs before new after : Bindings} {w : Word} {v : Str}

/-! ## How often a variable is left -/

theorem isAVariable_ne_nil (h : isAVariable v = true) : v ≠ [] := by
  obtain ⟨c, rfl, -⟩ := isAVariable_cases h
  exact List.cons_ne_nil _ _

theorem strstr_iff_occurrences (h : isAVariable v = true) :
    strstr w.name v = true ↔ 0 < occurrences v w.name := by
  rw [occurrences_pos_iff (isAVariable_ne_nil h), strstr, decide_eq_true_eq]

/-- No text of a number is the letter of a variable. -/
theorem toNumber_letter {c : Char} (h : isAVariable ['$', c, '$'] = true) : toNumber [c] = 0 := by
  have h : ['$', c, '$'] ∈ ["$a$", "$b$", "$c$", "$d$", "$e$", "$f$", "$g$", "$h$"].map
    String.toList := of_decide_eq_true h
  simp only [List.map_cons, List.map_nil, List.mem_cons, List.not_mem_nil, or_false] at h
  rcases h with h | h | h | h | h | h | h | h <;>
    · obtain ⟨rfl, -⟩ := List.cons.inj (List.cons.inj h).2
      decide

theorem exists_replaceVariable (h : strstr w.name b.variable_.name = true) :
    ∃ front rest, w.name = front ++ (b.variable_.name ++ rest) ∧
      (replaceVariable w b).name <+: front ++ (b.number.name ++ rest) := by
  rw [replaceVariable]
  split
  · rename_i heq
    exact ⟨[], [], by simp [heq], by simp⟩
  · cases hcut : cutAtFirst b.variable_.name w.name with
    | none => exact absurd (of_decide_eq_true h) (cutAtFirst_eq_none hcut)
    | some cut =>
        obtain ⟨front, rest⟩ := cut
        refine ⟨front, rest, ?_, ?_⟩
        · rw [cutAtFirst_eq_some hcut, List.append_assoc]
        · simp only [List.append_assoc]
          exact List.take_prefix _ _

/-- A round takes one place from its variable, and adds no place to any. -/
theorem occurrences_replaceVariable_le (hb : b.Recorded)
    (hn : strstr w.name b.variable_.name = true → '$' ∉ b.number.name)
    (hv : isAVariable v = true) :
    occurrences v (replaceVariable w b).name ≤
      occurrences v w.name - if b.variable_.name = v then 1 else 0 := by
  by_cases hin : strstr w.name b.variable_.name = true
  · obtain ⟨front, rest, hname, hfront⟩ := exists_replaceVariable hin
    have hle := @occurrences_le_front _ _ v _ _ hfront
    obtain ⟨c, rfl, -⟩ := isAVariable_cases hv
    have hne : b.number.name ≠ [] := fun h => hb.number (by rw [h]; rfl)
    have hletter : b.number.name ≠ [c] := fun h => hb.number (by rw [h]; exact toNumber_letter hv)
    rw [occurrences_between (hn hin) hne hletter] at hle
    have hold := @occurrences_le_append _ _ ['$', c, '$'] front (b.variable_.name ++ rest)
    have hold' := @occurrences_le_append _ _ ['$', c, '$'] b.variable_.name rest
    rw [← hname] at hold
    split
    · rename_i heq
      have hself := @occurrences_self _ _ ['$', c, '$'] (List.cons_ne_nil _ _)
      rw [heq] at hold hold'
      omega
    · omega
  · have hnot : ¬b.variable_.name <:+: w.name := by simpa [strstr] using hin
    rw [replaceVariable_of_absent hnot]
    split
    · rename_i heq
      rw [heq] at hin
      have := (strstr_iff_occurrences hv).not.mp hin
      omega
    · exact Nat.le_refl _

theorem occurrences_replaceVariablesInWord_le (hbs : ∀ b ∈ bs, b.Recorded)
    (hn : ∀ b ∈ bs, strstr w.name b.variable_.name = true → '$' ∉ b.number.name)
    (hv : isAVariable v = true) :
    occurrences v (replaceVariablesInWord bs w).name ≤
      occurrences v w.name - bs.countP fun b => b.variable_.name = v := by
  induction bs generalizing w with
  | nil => exact Nat.le_refl _
  | cons b bs ih =>
      obtain ⟨hb, hbs⟩ := List.forall_mem_cons.mp hbs
      obtain ⟨hnb, hn⟩ := List.forall_mem_cons.mp hn
      have hround := occurrences_replaceVariable_le hb hnb hv
      have hrest := @ih (replaceVariable w b) hbs fun b' hb' hin => by
        have hvar' := (hbs b' hb').variable_
        have hle := occurrences_replaceVariable_le hb hnb hvar'
        have hpos := (strstr_iff_occurrences hvar').mp hin
        exact hn b' hb' ((strstr_iff_occurrences hvar').mpr (by omega))
      have hstep : replaceVariablesInWord (b :: bs) w =
          replaceVariablesInWord bs (replaceVariable w b) := rfl
      rw [hstep, List.countP_cons]
      simp only [decide_eq_true_eq]
      omega

/-! ## The facts of a question -/

/-- The words that `replace_variables_in_fact` goes over. -/
def Fact.replacedWords (f : Fact) : List Word := f.subjects ++ f.objects ++ f.adverbs

def Fact.allWords (f : Fact) : List Word := f.replacedWords ++ (f.verbs ++ f.extra)

/-- No round with a binding of an earlier question finds its variable. -/
def Own (before after : Bindings) (w : Word) : Prop :=
  ∀ i b, after[i]? = some b →
    strstr (replaceVariablesInWord (after.take i) w).name b.variable_.name = true →
      before.length ≤ i

theorem own_iff (hafter : before <+: after) (hbs : ∀ b ∈ after, b.Recorded) :
    Own before after w ↔ ∀ b ∈ before, strstr w.name b.variable_.name = false := by
  obtain ⟨new, rfl⟩ := hafter
  have hbefore : ∀ b ∈ before, b.Recorded := fun b hb => hbs b (List.mem_append_left new hb)
  have hself : ∀ i, (∀ b ∈ before.take i, strstr w.name b.variable_.name = false) →
      i ≤ before.length → replaceVariablesInWord ((before ++ new).take i) w = w := by
    intro i hnone hi
    rw [List.take_append_of_le_length hi]
    have hrecorded : ∀ b ∈ before.take i, b.Recorded := fun b hb =>
      hbefore b (List.mem_of_mem_take hb)
    exact (replaceVariablesInWord_eq_self_iff hrecorded).mpr fun b hb =>
      of_decide_eq_false (hnone b hb)
  constructor
  · intro hown
    have hplace : ∀ (i : Nat) (b : Binding), before[i]? = some b →
        strstr w.name b.variable_.name = false := by
      intro i
      induction i using Nat.strong_induction_on with
      | _ i ih =>
          intro b hb
          have hlt := (List.getElem?_eq_some_iff.mp hb).1
          have hnone : ∀ b' ∈ before.take i, strstr w.name b'.variable_.name = false := by
            intro b' hb'
            obtain ⟨j, hj⟩ := List.mem_iff_getElem?.mp hb'
            rw [List.getElem?_take] at hj
            split at hj
            · rename_i hji
              exact ih j hji b' hj
            · cases hj
          by_contra hin
          have hround := hown i b (by rw [List.getElem?_append_left hlt, hb])
          rw [hself i hnone hlt.le] at hround
          exact absurd (hround (by simpa using hin)) (by omega)
    intro b hb
    obtain ⟨i, hi⟩ := List.mem_iff_getElem?.mp hb
    exact hplace i b hi
  · intro hnone i b hb hin
    by_contra hlt
    have hlt : i < before.length := by omega
    rw [List.getElem?_append_left hlt] at hb
    rw [hself i (fun b hb => hnone b (List.mem_of_mem_take hb)) hlt.le,
      hnone b (List.mem_of_getElem? hb)] at hin
    cases hin

/-- What is asked for: only bindings of the question are used, and none of its variables is left. -/
structure PerQuestion (before after : Bindings) (f : Fact) : Prop where
  own : ∀ w ∈ f.replacedWords, Own before after w
  left : ∀ w ∈ (replaceVariablesInFact after f).allWords, ∀ b ∈ after,
    strstr w.name b.variable_.name = false

/-- No variable of an earlier question is in the fact. A variable of the question is in no word of
the fact more often than it was matched. -/
structure MatchedHere (before after : Bindings) (f : Fact) : Prop where
  earlier : ∀ w ∈ f.replacedWords, ∀ b ∈ before, strstr w.name b.variable_.name = false
  often : ∀ w ∈ f.replacedWords, ∀ b ∈ after, strstr w.name b.variable_.name = true →
    '$' ∉ b.number.name ∧ occurrences b.variable_.name w.name ≤
      after.countP fun b' => b'.variable_.name = b.variable_.name
  others : ∀ w ∈ f.verbs ++ f.extra, ∀ b ∈ after, strstr w.name b.variable_.name = false

theorem mem_replacedWords_replaceVariablesInFact {f : Fact}
    (h : w ∈ (replaceVariablesInFact bs f).replacedWords) :
    ∃ w' ∈ f.replacedWords, w = replaceVariablesInWord bs w' := by
  have hmap : (replaceVariablesInFact bs f).replacedWords =
      f.replacedWords.map (replaceVariablesInWord bs) := by
    simp [Fact.replacedWords, replaceVariablesInFact, replaceVariablesInWords]
  rw [hmap] at h
  obtain ⟨w', hw', rfl⟩ := List.mem_map.mp h
  exact ⟨w', hw', rfl⟩

theorem MatchedHere.perQuestion {f : Fact} (h : MatchedHere before after f)
    (hafter : before <+: after) (hbs : ∀ b ∈ after, b.Recorded) : PerQuestion before after f where
  own w hw := (own_iff hafter hbs).mpr (h.earlier w hw)
  left w hw b hb := by
    rcases List.mem_append.mp hw with hw | hw
    · obtain ⟨w', hw', rfl⟩ := mem_replacedWords_replaceVariablesInFact hw
      have hvar := (hbs b hb).variable_
      have hle := @occurrences_replaceVariablesInWord_le after w' b.variable_.name hbs
        (fun b hb hin => (h.often w' hw' b hb hin).1) hvar
      by_contra hin
      have hpos := (strstr_iff_occurrences hvar).mp (by simpa using hin)
      have hin' := (strstr_iff_occurrences hvar).mpr (show 0 < occurrences _ w'.name by omega)
      have := (h.often w' hw' b hb hin').2
      omega
    · exact h.others w hw b hb

theorem PerQuestion.others {f : Fact} (h : PerQuestion before after f) :
    ∀ w ∈ f.verbs ++ f.extra, ∀ b ∈ after, strstr w.name b.variable_.name = false :=
  fun w hw => h.left w (List.mem_append_right _ hw)

/-- Where a variable is a word of its own, and a number has no dollar sign. -/
theorem perQuestion_iff {f : Fact} (hafter : before <+: after) (hbs : ∀ b ∈ after, b.Recorded)
    (hnumbers : ∀ b ∈ after, '$' ∉ b.number.name)
    (hwords : ∀ w ∈ f.replacedWords, ∀ b ∈ after,
      strstr w.name b.variable_.name = true → w = b.variable_) :
    PerQuestion before after f ↔
      (∀ w ∈ f.replacedWords, ∀ b ∈ before, strstr w.name b.variable_.name = false) ∧
        ∀ w ∈ f.verbs ++ f.extra, ∀ b ∈ after, strstr w.name b.variable_.name = false := by
  constructor
  · exact fun h => ⟨fun w hw => (own_iff hafter hbs).mp (h.own w hw), h.others⟩
  · rintro ⟨hearlier, hothers⟩
    refine MatchedHere.perQuestion ⟨hearlier, fun w hw b hb hin => ⟨hnumbers b hb, ?_⟩, hothers⟩
      hafter hbs
    rw [hwords w hw b hb hin, occurrences_self (isAVariable_ne_nil (hbs b hb).variable_)]
    exact List.countP_pos_iff.mpr ⟨b, hb, decide_eq_true rfl⟩

end Freehal.Universal
