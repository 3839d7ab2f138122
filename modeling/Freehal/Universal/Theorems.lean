import Freehal.Universal.Lemmas.Levels

/-!
# Main theorems on matching
-/

namespace Freehal.Universal
open Lib

variable (cfg : Config)

/-! ## Weaker levels are relaxations -/

theorem orElse_relaxed {r r' : Int} (h : AnswerRelaxed r r') {unknown : Bool}
    (ho : orElse r unknown) : orElse r' unknown := by
  unfold orElse at ho ⊢
  split at ho
  · rename_i hr
    rw [if_pos (h.unknown.mp hr)]
    exact ho
  · rename_i hr
    have hb := h.bound
    have hne : r ≠ 0 := by simpa using ho
    have hpos' : 0 < r' := h.pos (by omega)
    rw [if_neg fun hr' => hr (h.unknown.mpr hr')]
    exact decide_eq_true (by omega)

theorem entityOr_relaxes (words : List Word) (request : List Group) {level level' : Level}
    (h : level.Relaxed level') (unknown : Bool) :
    Relaxes (entityOr cfg words request level unknown) (entityOr cfg words request level' unknown) :=
  (factMatchesEntityByEntity_related cfg words request h).map _ _ fun _ _ h => orElse_relaxed h

theorem extraUnknown_relaxes (request : Request) (words : List Word) :
    Relaxes (extraUnknown cfg request words) (extraUnknown cfg request words) := by
  refine (factMatchesEntityByEntity_related cfg words request.extra (Level.Relaxed.refl _)).map _ _ ?_
  intro r r' h hr
  have hb := h.bound
  have hr : r < 0 := by simpa using hr
  have hr' : r' = -1 := h.unknown.mp (by omega)
  exact decide_eq_true (by omega)

theorem extraMatches_relaxes (request : Request) (words : List Word) :
    Relaxes (extraMatches cfg request words) (extraMatches cfg request words) := by
  refine (factMatchesEntityByEntity_related cfg words request.extra (Level.Relaxed.refl _)).map _ _ ?_
  intro r r' h hr
  exact decide_eq_true (h.pos (by simpa using hr))

theorem factMatchesAnythingByExtra_relaxes (fact : Fact) (request : Request) :
    Relaxes (factMatchesAnythingByExtra cfg fact request)
      (factMatchesAnythingByExtra cfg fact request) := by
  have unknown := extraUnknown_relaxes cfg request
  have found := extraMatches_relaxes cfg request
  refine Relaxes.or ?_ ?_
  · exact (unknown _).and ((unknown _).and ((unknown _).and (unknown _)))
  · exact (found _).or ((found _).or ((found _).or (found _)))

theorem factMatchesRules_relaxes (fact : Fact) (request : Request) {level level' : Level}
    (h : level.Relaxed level') :
    Relaxes (factMatchesRules cfg fact request level) (factMatchesRules cfg fact request level') := by
  have entity : ∀ words groups unknown, Relaxes (entityOr cfg words groups level unknown)
      (entityOr cfg words groups level' unknown) :=
    fun words groups unknown => entityOr_relaxes cfg words groups h unknown
  have const : ∀ b : Bool, Relaxes (σ := Bindings) (pure b) (pure b) :=
    fun b => Related.pure id
  have adverbs : Relaxes (factMatchesAdverbByAdverb cfg fact request level)
      (factMatchesAdverbByAdverb cfg fact request level') := by
    unfold factMatchesAdverbByAdverb
    split
    · exact const true
    · exact entity _ _ _
  refine (const _).and (Relaxes.and ?_ (Relaxes.and ?_ ?_))
  · refine Relaxes.or ?_ (Relaxes.or ?_ (Relaxes.or (const _) (const _)))
    · exact (entity _ _ _).and ((entity _ _ _).or ((entity _ _ _).or (entity _ _ _)))
    · exact (const _).and ((entity _ _ _).and (entity _ _ _))
  · exact adverbs.or ((entity _ _ _).or (entity _ _ _))
  · exact factMatchesAnythingByExtra_relaxes cfg fact request

theorem filterLevel_relaxed (fact : Fact) (request : Request) :
    (filterLevel fact request .exact).Relaxed (filterLevel fact request .weak) := by
  have : ∀ l : Level, l = .exact ∨ l = .weak → l.Relaxed .weak := by
    rintro l (rfl | rfl) <;> trivial
  have hweak : filterLevel fact request .weak = .weak := by
    unfold filterLevel
    dsimp only
    rw [if_neg (c := Level.weak = .exact ∧ _) fun h => nomatch h.1]
    split <;> rfl
  rw [hweak]
  refine this _ ?_
  unfold filterLevel
  dsimp only
  split
  · exact Or.inr rfl
  split
  · exact Or.inr rfl
  · exact Or.inl rfl

/-- A weaker level matches what a stronger one does, no level changes whether the answer is -1,
and a fact that passes the filter with `exact` passes it with `weak`. -/
theorem weaker_levels_relax (cfg : Config) :
    (∀ (words : List Word) (request : List Group) (s₁ s₂ s₃ : Bindings),
      let veryExact := ((factMatchesEntityByEntity cfg words request .veryExact).run s₁).1
      let exact := ((factMatchesEntityByEntity cfg words request .exact).run s₂).1
      let weak := ((factMatchesEntityByEntity cfg words request .weak).run s₃).1
      (0 < veryExact → 0 < exact) ∧ (0 < exact → 0 < weak) ∧
        (veryExact = -1 ↔ exact = -1) ∧ (exact = -1 ↔ weak = -1)) ∧
    (∀ (fact : Fact) (request : Request) (s s' : Bindings),
      ((filterFactByRules cfg fact request .exact).run s).1 = some fact →
        ((filterFactByRules cfg fact request .weak).run s').1 = some fact) := by
  refine ⟨fun words request s₁ s₂ s₃ => ?_, fun fact request s s' h => ?_⟩
  · have hve := factMatchesEntityByEntity_related cfg words request
      (show Level.Relaxed .veryExact .exact from trivial) s₁ s₂
    have hew := factMatchesEntityByEntity_related cfg words request
      (show Level.Relaxed .exact .weak from trivial) s₂ s₃
    exact ⟨hve.pos, hew.pos, hve.unknown, hew.unknown⟩
  · have hrules := factMatchesRules_relaxes cfg fact request (filterLevel_relaxed fact request) s s'
    have hexact : ((factMatchesRules cfg fact request (filterLevel fact request .exact)).run s).1 := by
      by_contra hf
      have hnone : ((filterFactByRules cfg fact request .exact).run s).1 = none := if_neg hf
      rw [hnone] at h
      cases h
    exact if_pos (hrules hexact)

/-- A question for the thesis that a house is big, in German. -/
def bigHouse : Fact where
  subjects := [⟨"haus".toList⟩]
  objects := [⟨"gross".toList⟩]
  verbs := [⟨"ist".toList⟩]
  adverbs := []
  extra := []
  questionword := []
  filename := "prot.xml".toList
  truth := 1
  pk := 1

def isTheHouseBig : Request where
  subjects := [some [some ⟨"das".toList⟩, some ⟨"haus".toList⟩]]
  objects := [none, some [some ⟨"gross".toList⟩, none]]
  verbs := [⟨"ist|sind".toList⟩]
  adverbs := []
  adverbsAny := false
  extra := []
  context := "default".toList

def german : Config := ⟨false, "de".toList⟩

theorem weaker_levels_relax_bigHouse :
    ((filterFactByRules german bigHouse isTheHouseBig .weak).run []).1 = some bigHouse :=
  (weaker_levels_relax german).2 bigHouse isTheHouseBig [] [] (by decide +kernel)

end Freehal.Universal
