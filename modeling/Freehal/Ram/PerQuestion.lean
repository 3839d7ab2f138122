import Freehal.Ram.Asking
import Freehal.Universal.Bindings

/-!
# The bindings over many questions

The bindings are never reset, so that the variables of a fact may get the numbers of an earlier
question.
-/

namespace Freehal.Ram

open Universal (Word Level Config Request Binding Bindings Own PerQuestion MatchedHere isAVariable
  strstr filterListByRules filterListByRules_records own_iff perQuestion_iff)

variable {settings : Settings} {q : Question} {s : Engine} {m m' : Memory}

/-! ## What a question records -/

theorem reviewFact_recorded {a : Nat} {p : Pointer} (hbs : ∀ b ∈ m.bindings, b.Recorded)
    (h : reviewFact settings q a m = some (p, m')) : ∀ b ∈ m'.bindings, b.Recorded := by
  simp only [reviewFact, Option.bind_eq_bind, Option.bind_eq_some_iff] at h
  obtain ⟨f, -, h⟩ := h
  have hrecords := (@reviewVerb_records f settings q).forall hbs
  split at h
  · cases h
    exact hrecords
  · obtain ⟨c, -, h⟩ := Option.bind_eq_some_iff.mp h
    cases h
    exact hrecords

theorem reviewList_recorded {list answers : List Pointer} (hbs : ∀ b ∈ m.bindings, b.Recorded)
    (h : reviewList settings q list m = some (answers, m')) : ∀ b ∈ m'.bindings, b.Recorded := by
  induction list generalizing m answers with
  | nil =>
      cases h
      exact hbs
  | cons p list ih =>
      cases p with
      | none =>
          simp only [reviewList, Option.bind_eq_bind, Option.bind_eq_some_iff] at h
          obtain ⟨⟨rest, m₁⟩, hrest, h⟩ := h
          cases h
          exact ih hbs hrest
      | some a =>
          simp only [reviewList, Option.bind_eq_bind, Option.bind_eq_some_iff] at h
          obtain ⟨⟨first, m₁⟩, hfirst, ⟨rest, m₂⟩, hrest, h⟩ := h
          cases h
          exact ih (reviewFact_recorded hbs hfirst) hrest

theorem searchFactsSimple_recorded {answers : List Pointer} (hbs : ∀ b ∈ m.bindings, b.Recorded)
    (h : searchFactsSimple settings q m = some (answers, m')) : ∀ b ∈ m'.bindings, b.Recorded := by
  obtain ⟨bs, hbs, heq⟩ := @searchFactsSimple_eq settings q m hbs
  exact reviewList_recorded hbs (heq.symm.trans h)

/-! ## The facts that are replaced in -/

/-- What holds of each fact in which variables are replaced, and of the bindings before and after it
was matched. -/
def OfKept (settings : Settings) (P : Bindings → Bindings → Universal.Fact → Prop) (q : Question)
    (m : Memory) : Prop :=
  ∀ a f, some a ∈ (firstSearch settings q m).1 → m.engine.facts[a]? = some f →
    P m.bindings (firstSearch settings q m).2 f.toFact

theorem firstSearch_extends : m.bindings <+: (firstSearch settings q m).2 := by
  obtain ⟨new, hnew, -⟩ := searchAndFilter_records settings q m.engine "no-extra".toList m.bindings
  exact ⟨new, hnew.symm⟩

theorem Throughout.perQuestion {qs : List Question} (hbs : ∀ b ∈ m.bindings, b.Recorded)
    (h : Throughout settings (OfKept settings MatchedHere) qs m) :
    Throughout settings (OfKept settings PerQuestion) qs m := by
  induction qs generalizing m with
  | nil => trivial
  | cons q qs ih =>
      obtain ⟨hfirst, hrest⟩ := h
      refine ⟨fun a f ha hf => ?_, fun asked hasked => ?_⟩
      · exact (hfirst a f ha hf).perQuestion firstSearch_extends (recorded_firstSearch hbs)
      · exact ih (searchFactsSimple_recorded hbs hasked) (hrest asked hasked)

/-- Any number of somebody likes the animal. -/
def likes (animal : String) : Universal.Fact where
  subjects := [⟨"$a$".toList⟩]
  objects := [⟨animal.toList⟩]
  verbs := [⟨"mag".toList⟩]
  adverbs := []
  extra := []
  questionword := []
  filename := "prot.xml".toList
  truth := 1
  pk := 1

def doLike (subjects : List Universal.Group) (animal : String) : Request where
  subjects := subjects
  objects := [some [some ⟨animal.toList⟩]]
  verbs := [⟨"mag".toList⟩]
  adverbs := []
  adverbsAny := false
  extra := []
  context := "default".toList

def fiveForA : Binding := ⟨⟨"$a$".toList⟩, ⟨"5".toList⟩⟩

theorem run_fiveLike : (filterListByRules ⟨true, "de".toList⟩
    (doLike [some [some ⟨"5".toList⟩]] "katze") .exact [((), likes "katze")]).run [] =
      ([some ((), likes "katze")], [fiveForA]) :=
  Prod.ext (by decide +kernel) (by decide +kernel)

end Freehal.Ram
