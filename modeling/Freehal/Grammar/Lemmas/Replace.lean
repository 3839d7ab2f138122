import Freehal.Grammar.Derivation
import Freehal.Grammar.Lemmas.Grammar

/-!
# Replacing a run of a sentence

`replaceInList` stops its comparison where the sentence ends, so it may take a run that is too
short. It does not where the keys of the rule are a run of the keys of the sentence, which is
what the search in the text finds as long as no key holds a blank.
-/

namespace Freehal.Grammar
open Lib

/-! ## Comparing keys -/

theorem matchRun_keys {vec find : Entities} (h : matchRun vec find)
    (hlen : find.length ≤ vec.length) :
    (vec.take find.length).map Entity.toKey = find.map Entity.toKey := by
  induction find generalizing vec with
  | nil => rfl
  | cons f find ih =>
      cases vec with
      | nil => simp at hlen
      | cons v vec =>
          simp only [matchRun, Bool.and_eq_true, decide_eq_true_eq] at h
          simp only [List.length_cons, List.take_succ_cons, List.map_cons, h.1]
          rw [ih h.2 (by simpa using hlen)]

theorem matchRun_of_prefix {vec find : Entities}
    (h : find.map Entity.toKey <+: vec.map Entity.toKey) : matchRun vec find := by
  induction find generalizing vec with
  | nil => cases vec <;> rfl
  | cons f find ih =>
      cases vec with
      | nil => rfl
      | cons v vec =>
          simp only [List.map_cons, List.cons_prefix_cons] at h
          simp [matchRun, h.1, ih h.2]

/-! ## The run that was found -/

theorem foundList_cons {v f : Entity} {vec find es : Entities}
    (h : foundList (v :: vec) (f :: find) = some es) :
    ∃ e es', v.modify f.getMarker = some e ∧ foundList vec find = some es' ∧ es = e :: es' := by
  simp only [foundList, Option.bind_eq_bind, Option.bind_eq_some_iff, Option.some.injEq] at h
  obtain ⟨e, he, es', hes, rfl⟩ := h
  exact ⟨e, es', he, hes, rfl⟩

/-- The children of the new entity are those of the run, up to their markers. -/
theorem foundList_marked {run vec find es : Entities} (hv : ∀ v ∈ run, v.Wf)
    (hf : ∀ f ∈ find, f.Sym) (hk : run.map Entity.toKey = find.map Entity.toKey)
    (h : foundList (run ++ vec) find = some es) : List.Forall₂ Entity.Marked run es := by
  induction run generalizing find es with
  | nil =>
      obtain rfl : find = [] := by simpa using hk.symm
      cases vec <;> cases h <;> exact .nil
  | cons v run ih =>
      cases find with
      | nil => simp at hk
      | cons f find =>
          simp only [List.map_cons, List.cons.injEq] at hk
          obtain ⟨e, es', he, hes, rfl⟩ := foundList_cons h
          have hsym := hf f (by simp)
          exact .cons (Entity.modify_marker (hv v (by simp)) hsym.wf hsym.plain hk.1 he)
            (ih (fun w hw => hv w (by simp [hw])) (fun g hg => hf g (by simp [hg])) hk.2 hes)

theorem Entity.newEmbed_toStr {r e : Entity} (h : r.Sym) {embed : List Entity}
    (he : Entity.newEmbed r.toStr embed = some e) : e = { r with embed := embed } := by
  rw [Entity.newEmbed, Entity.new_toStr h.wf h.plain] at he
  exact (Option.some.inj he).symm

/-! ## Specifications of `replaceInList` -/

/-- Where the keys of `find` are a run of the sentence, exactly the first such run is replaced. -/
theorem replaceInList_full {find vec out : Entities} {replacement : Entity} (hne : find ≠ [])
    (hin : find.map Entity.toKey <:+: vec.map Entity.toKey)
    (h : replaceInList find replacement vec = some out) :
    ∃ pre run post found e, vec = pre ++ (run ++ post) ∧
      run.map Entity.toKey = find.map Entity.toKey ∧
      (∀ n < pre.length, ¬ find.map Entity.toKey <+: (vec.drop n).map Entity.toKey) ∧
      foundList (run ++ post) find = some found ∧
      Entity.newEmbed replacement.toStr found = some e ∧ out = pre ++ e :: post := by
  induction vec generalizing out with
  | nil =>
      have : find = [] := by simpa using hin
      exact absurd this hne
  | cons v vec ih =>
      obtain ⟨f, fs, rfl⟩ := List.exists_cons_of_ne_nil hne
      simp only [replaceInList] at h
      split at h
      · rename_i hm
        simp only [replaceRun, Option.bind_eq_bind, Option.bind_eq_some_iff,
          Option.some.injEq] at h
        obtain ⟨found, hfound, e, he, rfl⟩ := h
        have hlen : (f :: fs).length ≤ (v :: vec).length := by simpa using hin.length_le
        have hrun : matchRun (v :: vec) (f :: fs) := hm
        refine ⟨[], (v :: vec).take (f :: fs).length, (v :: vec).drop (f :: fs).length, found, e,
          ?_, matchRun_keys hrun hlen, fun n hn => absurd hn (Nat.not_lt_zero n), ?_, he, rfl⟩
        · rw [List.take_append_drop]; rfl
        · rw [List.take_append_drop]; exact hfound
      · rename_i hm
        have hhead : ¬ (f :: fs).map Entity.toKey <+: (v :: vec).map Entity.toKey := fun hp =>
          hm (show matchRun (v :: vec) (f :: fs) from matchRun_of_prefix hp)
        have htail : (f :: fs).map Entity.toKey <:+: vec.map Entity.toKey := by
          rcases List.infix_cons_iff.mp (by simpa using hin) with hp | hi
          · exact absurd (by simpa using hp) hhead
          · simpa using hi
        simp only [Option.map_eq_some_iff] at h
        obtain ⟨out', h', rfl⟩ := h
        obtain ⟨pre, run, post, found, e, rfl, hk, hfirst, hfound, he, rfl⟩ := ih htail h'
        refine ⟨v :: pre, run, post, found, e, rfl, hk, fun n hn => ?_, hfound, he, rfl⟩
        cases n with
        | zero => exact hhead
        | succ n => exact hfirst n (Nat.lt_of_succ_lt_succ hn)

theorem mem_drop_of_matchRun {vec find : Entities} (h : matchRun vec find) {b : Entity}
    (hb : b ∈ vec) (hf : ∀ f ∈ find, b.toKey ≠ f.toKey) : b ∈ vec.drop find.length := by
  induction find generalizing vec with
  | nil => exact hb
  | cons f find ih =>
      cases vec with
      | nil => cases hb
      | cons v vec =>
          simp only [matchRun, Bool.and_eq_true, decide_eq_true_eq] at h
          rcases List.mem_cons.mp hb with rfl | hb
          · exact absurd h.1 (hf f (by simp))
          · exact ih h.2 hb fun g hg => hf g (by simp [hg])

/-- An entity whose key is none of the keys of the rule stays in the sentence. -/
theorem replaceInList_keeps {find vec out : Entities} {replacement : Entity}
    (h : replaceInList find replacement vec = some out) {b : Entity} (hb : b ∈ vec)
    (hf : ∀ f ∈ find, b.toKey ≠ f.toKey) : b ∈ out := by
  induction vec generalizing out with
  | nil => cases hb
  | cons v vec ih =>
      cases find with
      | nil => cases h; exact hb
      | cons f fs =>
          simp only [replaceInList] at h
          split at h
          · rename_i hm
            simp only [replaceRun, Option.bind_eq_bind, Option.bind_eq_some_iff,
              Option.some.injEq] at h
            obtain ⟨_, _, e, _, rfl⟩ := h
            have hrun : matchRun (v :: vec) (f :: fs) := hm
            exact List.mem_cons_of_mem _ (mem_drop_of_matchRun hrun hb hf)
          · simp only [Option.map_eq_some_iff] at h
            obtain ⟨out', h', rfl⟩ := h
            rcases List.mem_cons.mp hb with rfl | hb
            · exact List.mem_cons_self
            · exact List.mem_cons_of_mem _ (ih h' hb)

end Freehal.Grammar
