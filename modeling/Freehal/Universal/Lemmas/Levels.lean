import Freehal.Lib.Relational
import Freehal.Universal.Match

/-!
# Match levels

Two runs of the same match at two levels, the second one weaker. The counters of a group agree
in both, and the second level stays the weaker one.
-/

namespace Freehal.Universal
open Lib

/-- The second level is the weaker one. -/
def Level.Relaxed : Level → Level → Prop
  | .veryExact, _ => True
  | .exact, .veryExact => False
  | .exact, _ => True
  | .weak, .weak => True
  | .weak, _ => False

theorem Level.Relaxed.refl (l : Level) : l.Relaxed l := by
  cases l <;> trivial

/-- A `|` keeps the order of two levels. -/
theorem Level.Relaxed.pipe {l l' : Level} (h : l.Relaxed l') :
    (if l = .weak then .exact else l : Level).Relaxed (if l' = .weak then .exact else l') := by
  cases l <;> cases l' <;> trivial

theorem Level.Relaxed.weaken {l l' : Level} (h : l.Relaxed l') (b : Bool) :
    (if b then .weak else l : Level).Relaxed (if b then .weak else l') := by
  cases b with
  | false => exact h
  | true => trivial

variable {cfg : Config}

/-! ## Words -/

theorem matchInArray_related (word : Word) (words : List Word) :
    Related Eq (matchInArray cfg word words) (matchInArray cfg word words) := by
  induction words with
  | nil => exact Related.pure rfl
  | cons w words ih =>
      unfold matchInArray
      split
      · dsimp only
        split
        · exact Related.bind (Related.modify _ _) fun _ _ _ => Related.pure rfl
        · exact Related.pure rfl
      · exact ih

theorem wordMatchesWordArray_related (word : Word) (words : List Word) :
    Related Eq (wordMatchesWordArray cfg word words) (wordMatchesWordArray cfg word words) := by
  unfold wordMatchesWordArray
  split
  · exact Related.pure rfl
  split
  · exact Related.pure rfl
  · exact matchInArray_related word words

/-! ## Groups -/

/-- The counters agree. -/
structure GroupState.Sim (st st' : GroupState) : Prop where
  doesMatch : st.doesMatch = st'.doesMatch
  shouldMatch : st.shouldMatch = st'.shouldMatch
  allowMatch : st.allowMatch = st'.allowMatch
  flags : st.flags.Relaxed st'.flags

theorem matchGroup_related {words : List Word} {check : Bool} {group : List (Option Word)}
    {st st' : GroupState} (h : st.Sim st') :
    Related GroupState.Sim (matchGroup cfg words check group st)
      (matchGroup cfg words check group st') := by
  induction group generalizing st st' with
  | nil => exact Related.pure h
  | cons w group ih =>
      cases w with
      | none => exact ih h
      | some word =>
          simp only [matchGroup, h.doesMatch, h.shouldMatch, h.allowMatch]
          split
          · exact ih ⟨rfl, rfl, rfl, trivial⟩
          split
          · exact ih h
          split
          · exact ih ⟨rfl, rfl, rfl, h.flags⟩
          split
          · exact ih ⟨rfl, rfl, rfl, h.flags⟩
          split
          · split
            · exact Related.pure ⟨rfl, rfl, rfl, h.flags⟩
            · exact ih ⟨rfl, rfl, rfl, h.flags⟩
          split
          · refine Related.bind (wordMatchesWordArray_related word words) fun b b' hb => ?_
            subst hb
            exact ih ⟨rfl, rfl, rfl, h.flags⟩
          · exact ih ⟨rfl, rfl, rfl, h.flags⟩

/-- A group of invalid words leaves the counters alone. -/
theorem matchGroup_invalid {words : List Word} {check : Bool} {group : List (Option Word)}
    (h : group.filterMap id = []) (st : GroupState) :
    matchGroup cfg words check group st = pure st := by
  induction group with
  | nil => rfl
  | cons w group ih =>
      cases w with
      | none => exact ih (by simpa using h)
      | some word => simp at h

/-- The condition of a level implies the condition of every weaker one. -/
theorem groupDoesMatch_relaxed {segment group : List Word} {st st' : GroupState} (h : st.Sim st')
    (hm : groupDoesMatch cfg segment group st) : groupDoesMatch cfg segment group st' := by
  have hflags := h.flags
  unfold groupDoesMatch at hm ⊢
  dsimp only at hm ⊢
  rw [← h.doesMatch, ← h.shouldMatch]
  cases hl : st.flags <;> cases hl' : st'.flags <;> rw [hl, hl'] at hflags <;>
    simp only [hl, Level.Relaxed, Bool.and_eq_true, Bool.or_eq_true, decide_eq_true_eq] at hm hflags ⊢
  · exact hm
  · obtain ⟨hm, hc⟩ := hm
    refine ⟨hm, ?_⟩
    rcases hc with hc | hc
    · exact Or.inl (Or.inr hc)
    · exact Or.inr ⟨by omega, hc.2⟩
  · exact Or.inl hm.1
  · exact hm
  · exact Or.inl hm.1
  · exact hm

/-! ## Requests -/

/-- No group up to the first empty one holds a valid word. -/
def noRequest : List Group → Bool
  | [] => true
  | none :: groups => noRequest groups
  | some [] :: _ => true
  | some (word :: rest) :: groups => (word :: rest).filterMap id = [] && noRequest groups

/-- Whether requests are counted does not depend on the level: a group matches only if it holds
a valid word, and that word is counted before the loop ends. -/
theorem matchGroups_count {segment : List Word} {groups : List Group} {st : SegmentState} :
    Returns (fun st' => st'.countRequests = 0 ↔ st.countRequests = 0 ∧ noRequest groups)
      (matchGroups cfg segment groups st) := by
  induction groups generalizing st with
  | nil => exact Returns.pure (by simp [noRequest])
  | cons g groups ih =>
      match g with
      | none => exact ih
      | some [] => exact Returns.pure (by simp [noRequest])
      | some (word :: rest) =>
          by_cases hg : (word :: rest).filterMap id = []
          · simp only [matchGroups, matchGroup_invalid hg, pure_bind, hg]
            have hno : ∀ flags, groupDoesMatch cfg segment [] { flags := flags } = false := by
              intro flags; cases flags <;> simp [groupDoesMatch]
            simp only [hno, Bool.false_eq_true, ↓reduceIte, Nat.add_zero, noRequest, hg,
              decide_true, Bool.true_and]
            exact ih
          · refine Returns.bind (P := fun _ => True) (fun _ => trivial) fun gs _ => ?_
            simp only [hg, ↓reduceIte, noRequest, decide_false, Bool.false_and, Bool.false_eq_true,
              and_false, iff_false]
            split
            · exact Returns.pure (by simp)
            · intro s hs
              have := (ih s).mp hs
              simp at this

/-- The loops over the groups of a request at two levels. -/
structure SegmentState.Sim (st st' : SegmentState) : Prop where
  doesMatch : st.doesMatch → st'.doesMatch
  flags : st'.doesMatch = false → st.flags.Relaxed st'.flags

theorem SegmentState.Sim.start {flags flags' : Level} (h : flags.Relaxed flags') :
    SegmentState.Sim { flags := flags } { flags := flags' } :=
  ⟨(fun hf => nomatch hf), fun _ => h⟩

theorem matchGroups_related {segment : List Word} {groups : List Group} {st st' : SegmentState}
    (h : st.Sim st') (hst : st'.doesMatch = false) :
    Related SegmentState.Sim (matchGroups cfg segment groups st)
      (matchGroups cfg segment groups st') := by
  induction groups generalizing st st' with
  | nil => exact Related.pure h
  | cons g groups ih =>
      match g with
      | none => exact ih h hst
      | some [] => exact Related.pure h
      | some (word :: rest) =>
          simp only [matchGroups]
          refine Related.bind (matchGroup_related ⟨rfl, rfl, rfl, h.flags hst⟩) fun gs gs' hgs => ?_
          by_cases hm' : groupDoesMatch cfg segment ((word :: rest).filterMap id) gs'
          · simp only [hm', ↓reduceIte]
            exact fun _ _ => SegmentState.Sim.mk (fun _ => rfl) fun hf => nomatch hf
          · have hm : ¬ groupDoesMatch cfg segment ((word :: rest).filterMap id) gs :=
              fun hm => hm' (groupDoesMatch_relaxed hgs hm)
            simp only [hm, hm', Bool.false_eq_true, ↓reduceIte]
            exact ih ⟨(fun hf => nomatch hf), fun _ => hgs.flags⟩ rfl

/-! ## Segments -/

/-- The answer is -1 exactly if nothing is requested, and not below it. -/
theorem matchSegments_unknown (cfg : Config) (words : List Word) (request : List Group)
    (segment rest : List Word) (flags : Level) :
    Returns (fun r => (r = -1 ↔ noRequest request) ∧ -1 ≤ r)
      (matchSegments cfg words request segment rest flags) := by
  induction rest generalizing segment flags with
  | nil =>
      simp only [matchSegments]
      refine Returns.bind matchGroups_count fun st hst => ?_
      split
      · rename_i hc
        exact Returns.pure ⟨by simpa [hc] using hst, by omega⟩
      · rename_i hc
        have hno : ¬ noRequest request := fun hno => hc (hst.mpr ⟨rfl, hno⟩)
        split
        · exact Returns.pure ⟨by simp [hno], by omega⟩
        · exact Returns.pure ⟨by simp [hno], by omega⟩
  | cons w rest ih =>
      simp only [matchSegments]
      split
      · exact ih _ _
      · refine Returns.bind matchGroups_count fun st hst => ?_
        split
        · rename_i hc
          exact Returns.pure ⟨by simpa [hc] using hst, by omega⟩
        · rename_i hc
          have hno : ¬ noRequest request := fun hno => hc (hst.mpr ⟨rfl, hno⟩)
          split
          · exact Returns.pure ⟨by simp [hno], by omega⟩
          · exact ih _ _

theorem matchSegments_related {words : List Word} {request : List Group} {segment rest : List Word}
    {flags flags' : Level} (h : flags.Relaxed flags') (hr : noRequest request = false) :
    Related (fun r r' => 0 < r → 0 < r') (matchSegments cfg words request segment rest flags)
      (matchSegments cfg words request segment rest flags') := by
  have hcount : ∀ {st : SegmentState} {n : Nat}, (n = 0 ↔ st.countRequests = 0 ∧ noRequest request) →
      n ≠ 0 := fun hn h0 => by simp [hr] at hn; exact hn h0
  induction rest generalizing segment flags flags' with
  | nil =>
      simp only [matchSegments]
      refine Related.bind ((matchGroups_related (SegmentState.Sim.start (h.weaken _)) rfl).with
        matchGroups_count matchGroups_count) fun st st' hst => ?_
      obtain ⟨hsim, hc, hc'⟩ := hst
      rw [if_neg (hcount hc), if_neg (hcount hc')]
      split
      · rename_i hm
        rw [if_pos (hsim.doesMatch hm)]
        exact Related.pure fun _ => by omega
      · exact fun _ _ h0 => absurd h0 (by show ¬ (0 : Int) < 0; omega)
  | cons w rest ih =>
      simp only [matchSegments]
      split
      · exact ih h
      · refine Related.bind ((matchGroups_related (SegmentState.Sim.start (h.pipe.weaken _)) rfl).with
          matchGroups_count matchGroups_count) fun st st' hst => ?_
        obtain ⟨hsim, hc, hc'⟩ := hst
        rw [if_neg (hcount hc), if_neg (hcount hc')]
        by_cases hm' : st'.doesMatch
        · rw [if_pos hm']
          exact fun _ _ _ => by show (0 : Int) < 1; omega
        · have hm : ¬ st.doesMatch := fun hm => hm' (hsim.doesMatch hm)
          rw [if_neg hm, if_neg hm']
          exact ih (hsim.flags (by simpa using hm'))

/-- How the answers of two runs compare. -/
structure AnswerRelaxed (r r' : Int) : Prop where
  pos : 0 < r → 0 < r'
  unknown : r = -1 ↔ r' = -1
  bound : -1 ≤ r

theorem factMatchesEntityByEntity_related (cfg : Config) (words : List Word) (request : List Group)
    {flags flags' : Level} (h : flags.Relaxed flags') :
    Related AnswerRelaxed (factMatchesEntityByEntity cfg words request flags)
      (factMatchesEntityByEntity cfg words request flags') := by
  unfold factMatchesEntityByEntity
  split
  · exact Related.pure ⟨id, Iff.rfl, by omega⟩
  intro s s'
  obtain ⟨hu, hb⟩ := matchSegments_unknown cfg words request [] words flags s
  obtain ⟨hu', _⟩ := matchSegments_unknown cfg words request [] words flags' s'
  refine ⟨fun hpos => ?_, hu.trans hu'.symm, hb⟩
  cases hr : noRequest request with
  | true =>
      rw [hu.mpr hr] at hpos
      omega
  | false => exact matchSegments_related h hr s s' hpos

end Freehal.Universal
