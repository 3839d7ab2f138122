import Freehal.Lib.Relational
import Freehal.Universal.Filter

/-!
# Replacing variables

`replace_variables_in_word` and what the match functions record for it. A variable is written
between two dollar signs, and no text of a number begins with one.
-/

namespace Freehal.Universal
open Lib

/-- `strstr`: what stands in front of the part, and what stands behind it. -/
def cutAtFirst (part : Str) : Str → Option (Str × Str)
  | [] => if part = [] then some ([], []) else none
  | c :: text =>
      if beginsWith (c :: text) part then some ([], (c :: text).drop part.length)
      else (cutAtFirst part text).map fun cut => (c :: cut.1, cut.2)

/-- A round of the loop in `replace_variables_in_word`. The new text ends before the limit of
`snprintf`. -/
def replaceVariable (word : Word) (b : Binding) : Word :=
  if word.name = b.variable_.name then b.number
  else
    match cutAtFirst b.variable_.name word.name with
    | some (front, rest) =>
        ⟨(front ++ b.number.name ++ rest).take (b.variable_.name.length + word.name.length + 1)⟩
    | none => word

def replaceVariablesInWord (bindings : Bindings) (word : Word) : Word :=
  bindings.foldl replaceVariable word

def replaceVariablesInWords (bindings : Bindings) (list : List Word) : List Word :=
  list.map (replaceVariablesInWord bindings)

def replaceVariablesInFact (bindings : Bindings) (fact : Fact) : Fact :=
  { fact with
    subjects := replaceVariablesInWords bindings fact.subjects
    objects := replaceVariablesInWords bindings fact.objects
    adverbs := replaceVariablesInWords bindings fact.adverbs }

/-! ## What is recorded -/

/-- A pair that the match functions record. -/
structure Binding.Recorded (b : Binding) : Prop where
  variable_ : isAVariable b.variable_.name = true
  number : toNumber b.number.name ≠ 0

variable {cfg : Config} {b : Binding} {bs : Bindings} {w : Word}

theorem isAVariable_cases {name : Str} (h : isAVariable name = true) :
    ∃ c, name = ['$', c, '$'] ∧ c ≠ '$' := by
  have h : name ∈ ["$a$", "$b$", "$c$", "$d$", "$e$", "$f$", "$g$", "$h$"].map String.toList :=
    of_decide_eq_true h
  simp only [List.map_cons, List.map_nil, List.mem_cons, List.not_mem_nil, or_false] at h
  rcases h with rfl | rfl | rfl | rfl | rfl | rfl | rfl | rfl <;>
    exact ⟨_, rfl, by decide⟩

theorem head_of_toNumber {text : Str} (h : toNumber text ≠ 0) :
    ∃ c rest, text = c :: rest ∧ c ≠ '$' := by
  cases text with
  | nil => exact absurd rfl h
  | cons c rest =>
      refine ⟨c, rest, rfl, ?_⟩
      rintro rfl
      exact h rfl

/-- A program of the match functions records only pairs of a variable and a number. -/
abbrev Records {α : Type} (x : Matcher α) : Prop := Adds Binding.Recorded x

theorem matchInArray_records (word : Word) (words : List Word) :
    Records (matchInArray cfg word words) := by
  induction words with
  | nil => exact Adds.pure _
  | cons w words ih =>
      rw [matchInArray]
      split
      · split
        · rename_i hvar
          rw [Bool.and_eq_true, decide_eq_true_eq] at hvar
          intro s
          by_cases hroom : 2 * s.length < 97
          · refine ⟨[⟨w, word⟩], if_pos hroom, fun b hb => ?_⟩
            obtain rfl := List.mem_singleton.mp hb
            exact ⟨hvar.1, hvar.2⟩
          · exact ⟨[], (if_neg hroom).trans (List.append_nil s).symm, fun _ h => nomatch h⟩
        · exact Adds.pure _
      · exact ih

theorem wordMatchesWordArray_records (word : Word) (words : List Word) :
    Records (wordMatchesWordArray cfg word words) := by
  unfold wordMatchesWordArray
  split
  · exact Adds.pure _
  split
  · exact Adds.pure _
  · exact matchInArray_records word words

theorem matchGroup_records {words : List Word} {check : Bool} {group : List (Option Word)}
    {st : GroupState} : Records (matchGroup cfg words check group st) := by
  induction group generalizing st with
  | nil => exact Adds.pure _
  | cons w group ih =>
      cases w with
      | none => exact ih
      | some word =>
          simp only [matchGroup]
          split
          · exact ih
          split
          · exact ih
          split
          · exact ih
          split
          · exact ih
          split
          · split
            · exact Adds.pure _
            · exact ih
          split
          · exact (wordMatchesWordArray_records word words).bind fun _ => ih
          · exact (Adds.pure _).bind fun _ => ih

theorem matchGroups_records {segment : List Word} {groups : List Group} {st : SegmentState} :
    Records (matchGroups cfg segment groups st) := by
  induction groups generalizing st with
  | nil => exact Adds.pure _
  | cons group groups ih =>
      cases group with
      | none => exact ih
      | some words =>
          cases words with
          | nil => exact Adds.pure _
          | cons word rest =>
              simp only [matchGroups]
              refine matchGroup_records.bind fun _ => ?_
              split
              · exact Adds.pure _
              · exact ih

theorem matchSegments_records {words : List Word} {request : List Group} {segment rest : List Word}
    {flags : Level} : Records (matchSegments cfg words request segment rest flags) := by
  induction rest generalizing segment flags with
  | nil =>
      simp only [matchSegments]
      refine matchGroups_records.bind fun st => ?_
      split
      · exact Adds.pure _
      split
      · exact Adds.pure _
      · exact Adds.pure _
  | cons w rest ih =>
      simp only [matchSegments]
      split
      · exact ih
      · refine matchGroups_records.bind fun st => ?_
        split
        · exact Adds.pure _
        split
        · exact Adds.pure _
        · exact ih

theorem factMatchesEntityByEntity_records (words : List Word) (request : List Group)
    (flags : Level) : Records (factMatchesEntityByEntity cfg words request flags) := by
  unfold factMatchesEntityByEntity
  split
  · exact Adds.pure _
  · exact matchSegments_records

theorem entityOr_records (words : List Word) (request : List Group) (level : Level)
    (unknown : Bool) : Records (entityOr cfg words request level unknown) :=
  (factMatchesEntityByEntity_records words request level).map _

theorem factMatchesAnythingByExtra_records (fact : Fact) (request : Request) :
    Records (factMatchesAnythingByExtra cfg fact request) := by
  have unknown : ∀ words, Records (extraUnknown cfg request words) := fun words =>
    (factMatchesEntityByEntity_records words request.extra .weak).map _
  have found : ∀ words, Records (extraMatches cfg request words) := fun words =>
    (factMatchesEntityByEntity_records words request.extra .weak).map _
  refine Adds.or ?_ ?_
  · exact (unknown _).and ((unknown _).and ((unknown _).and (unknown _)))
  · exact (found _).or ((found _).or ((found _).or (found _)))

theorem factMatchesRules_records (fact : Fact) (request : Request) (level : Level) :
    Records (factMatchesRules cfg fact request level) := by
  have entity : ∀ words groups unknown, Records (entityOr cfg words groups level unknown) :=
    fun words groups unknown => entityOr_records words groups level unknown
  have adverbs : Records (factMatchesAdverbByAdverb cfg fact request level) := by
    unfold factMatchesAdverbByAdverb
    split
    · exact Adds.pure _
    · exact entity _ _ _
  refine Adds.and (Adds.pure _) (Adds.and ?_ (Adds.and ?_ ?_))
  · refine Adds.or ?_ (Adds.or ?_ (Adds.or (Adds.pure _) (Adds.pure _)))
    · exact (entity _ _ _).and ((entity _ _ _).or ((entity _ _ _).or (entity _ _ _)))
    · exact (Adds.pure _).and ((entity _ _ _).and (entity _ _ _))
  · exact adverbs.or ((entity _ _ _).or (entity _ _ _))
  · exact factMatchesAnythingByExtra_records fact request

theorem filterFactByRules_records (fact : Fact) (request : Request) (level : Level) :
    Records (filterFactByRules cfg fact request level) :=
  (factMatchesRules_records fact request _).bind fun _ => Adds.pure _

theorem filterFacts_records {ι : Type} (request : Request) (level : Level)
    (list : List (ι × Fact)) : Records (filterFacts cfg request level list) := by
  induction list with
  | nil => exact Adds.pure _
  | cons entry list ih =>
      rw [filterFacts]
      exact (filterFactByRules_records entry.2 request level).bind fun _ =>
        ih.bind fun _ => Adds.pure _

theorem filterListByRules_records {ι : Type} (request : Request) (level : Level)
    (list : List (ι × Fact)) : Records (filterListByRules cfg request level list) :=
  (filterFacts_records request level list).map _

/-! ## What a round changes -/

theorem cutAtFirst_eq_some {part text front rest : Str}
    (h : cutAtFirst part text = some (front, rest)) : text = front ++ part ++ rest := by
  induction text generalizing front with
  | nil =>
      rw [cutAtFirst] at h
      split at h
      · rename_i hpart
        obtain ⟨rfl, rfl⟩ := Prod.mk.inj (Option.some.inj h)
        simp [hpart]
      · cases h
  | cons c text ih =>
      rw [cutAtFirst] at h
      split at h
      · rename_i hpart
        obtain ⟨rfl, rfl⟩ := Prod.mk.inj (Option.some.inj h)
        obtain ⟨t, ht⟩ := List.isPrefixOf_iff_prefix.mp hpart
        simp [← ht]
      · obtain ⟨⟨front', rest'⟩, hcut, hpair⟩ := Option.map_eq_some_iff.mp h
        obtain ⟨rfl, rfl⟩ := Prod.mk.inj hpair
        simp [ih hcut]

theorem cutAtFirst_eq_none {part text : Str} (h : cutAtFirst part text = none) :
    ¬part <:+: text := by
  induction text with
  | nil =>
      rw [cutAtFirst] at h
      split at h
      · cases h
      · rename_i hpart
        simpa using hpart
  | cons c text ih =>
      rw [cutAtFirst] at h
      split at h
      · cases h
      · rename_i hpart
        rw [List.infix_cons_iff]
        rintro (hfront | hinside)
        · exact hpart (List.isPrefixOf_iff_prefix.mpr hfront)
        · exact ih (by simpa using h) hinside

theorem replaceVariable_of_absent (h : ¬b.variable_.name <:+: w.name) :
    replaceVariable w b = w := by
  have hne : w.name ≠ b.variable_.name := fun heq => h (heq ▸ List.infix_refl _)
  rw [replaceVariable, if_neg hne]
  cases hcut : cutAtFirst b.variable_.name w.name with
  | none => rfl
  | some cut =>
      obtain ⟨front, rest⟩ := cut
      exact absurd ⟨front, rest, (cutAtFirst_eq_some hcut).symm⟩ h

/-- Where the variable began, there is another character than a dollar sign. -/
theorem replaceVariable_of_present (hb : b.Recorded) (h : b.variable_.name <:+: w.name) :
    ∃ p t c n, w.name = p ++ '$' :: t ∧ (replaceVariable w b).name = p ++ c :: n ∧ c ≠ '$' := by
  obtain ⟨x, hvar, -⟩ := isAVariable_cases hb.variable_
  obtain ⟨c, n, hnumber, hc⟩ := head_of_toNumber hb.number
  rw [replaceVariable]
  split
  · rename_i heq
    exact ⟨[], [x, '$'], c, n, by rw [heq, hvar]; rfl, hnumber, hc⟩
  · cases hcut : cutAtFirst b.variable_.name w.name with
    | none => exact absurd h (cutAtFirst_eq_none hcut)
    | some cut =>
        obtain ⟨front, rest⟩ := cut
        have hname := cutAtFirst_eq_some hcut
        rw [hvar] at hname
        have hlimit : front.length + 1 ≤ b.variable_.name.length + w.name.length + 1 := by
          rw [hname]
          simp
          omega
        obtain ⟨k, hk⟩ := Nat.exists_eq_add_of_le hlimit
        refine ⟨front, x :: '$' :: rest, c, (n ++ rest).take k, by rw [hname]; simp, ?_, hc⟩
        simp only [hnumber, hk]
        rw [List.append_assoc, Nat.add_assoc, List.take_length_add_append, Nat.add_comm 1 k]
        rfl

/-! ## Words that stay as they are -/

/-- The second text has another character at the place of a dollar sign, behind a common
beginning. -/
def Departs (s t : Str) : Prop :=
  ∃ p c u v, s = p ++ '$' :: u ∧ t = p ++ c :: v ∧ c ≠ '$'

theorem Departs.ne {s t : Str} (h : Departs s t) : t ≠ s := by
  obtain ⟨p, c, u, v, rfl, rfl, hc⟩ := h
  intro heq
  exact hc (List.cons.inj (List.append_cancel_left heq)).1

theorem Departs.replaceVariable {s : Str} (h : Departs s w.name) (hb : b.Recorded) :
    Departs s (replaceVariable w b).name := by
  by_cases hin : b.variable_.name <:+: w.name
  · obtain ⟨q, d, u, v, rfl, hw, hd⟩ := h
    obtain ⟨p, t, c, n, hp, hnew, hc⟩ := replaceVariable_of_present hb hin
    rw [hnew]
    rcases List.append_eq_append_iff.mp (hw.symm.trans hp) with ⟨z, rfl, hz⟩ | ⟨z, rfl, hz⟩
    · cases z with
      | nil => exact absurd (List.cons.inj hz).1 hd
      | cons e z =>
          -- the replacement is behind the place
          obtain ⟨rfl, _⟩ := List.cons.inj hz
          exact ⟨q, d, u, z ++ c :: n, rfl, by simp, hd⟩
    · cases z with
      | nil => exact absurd (List.cons.inj hz).1.symm hd
      | cons e z =>
          obtain ⟨rfl, _⟩ := List.cons.inj hz
          exact ⟨p, c, z ++ '$' :: u, n, by simp, rfl, hc⟩
  · rwa [replaceVariable_of_absent hin]

theorem Departs.replaceVariablesInWord {s : Str} (h : Departs s w.name)
    (hbs : ∀ b ∈ bs, b.Recorded) : Departs s (replaceVariablesInWord bs w).name := by
  induction bs generalizing w with
  | nil => exact h
  | cons b bs ih =>
      obtain ⟨hb, hbs⟩ := List.forall_mem_cons.mp hbs
      exact ih (h.replaceVariable hb) hbs

/-- A word stays as it is exactly when no recorded variable is in it. -/
theorem replaceVariablesInWord_eq_self_iff (hbs : ∀ b ∈ bs, b.Recorded) :
    replaceVariablesInWord bs w = w ↔ ∀ b ∈ bs, ¬b.variable_.name <:+: w.name := by
  induction bs with
  | nil => simp [replaceVariablesInWord]
  | cons b bs ih =>
      obtain ⟨hb, hbs⟩ := List.forall_mem_cons.mp hbs
      have hcons : replaceVariablesInWord (b :: bs) w =
          replaceVariablesInWord bs (replaceVariable w b) := rfl
      rw [List.forall_mem_cons, hcons]
      by_cases hin : b.variable_.name <:+: w.name
      · obtain ⟨p, t, c, n, hp, hnew, hc⟩ := replaceVariable_of_present hb hin
        have hdeparts : Departs w.name (replaceVariable w b).name := ⟨p, c, t, n, hp, hnew, hc⟩
        refine iff_of_false (fun heq => ?_) fun h => h.1 hin
        exact (hdeparts.replaceVariablesInWord hbs).ne (congrArg Word.name heq)
      · rw [replaceVariable_of_absent hin, ih hbs]
        exact (and_iff_right hin).symm

end Freehal.Universal
