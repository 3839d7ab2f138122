import Freehal.Ram.Net

/-!
# The thesaurus in memory

`ram_get_thesaurus_synonyms` at level 1. There is no result where a null pointer is followed: a
word that is in no fact has no list of facts, and a call without a key compares texts with a null
pointer. The call of `set_word` adds a word to the net, but no fact.
-/

namespace Freehal.Ram

open Universal (Word strstr joinWords)
open Lib (collect)

/-- `struct string_pair` -/
structure StringPair where
  subjects : Str
  objects : Str
deriving DecidableEq

def Fact.pair (f : Fact) : StringPair := ⟨joinWords f.subjects, joinWords f.objects⟩

section

variable (s : Engine) (limit : Nat)

/-- `related_facts_of_word` with a fresh array: its cells up to the new position. The cells before
the old position are null, and so are those behind the new one. -/
def relatedFactsOfWord (related : List Nat) (position : Nat) : List Pointer :=
  collect limit (List.replicate position none) (related.map some)

def relatedFactsOfStr (key : Str) (position : Nat) : Option (List Pointer) :=
  if key = [] ∨ s.relatedFacts ⟨key⟩ = [] then none
  else some (relatedFactsOfWord limit (s.relatedFacts ⟨key⟩) position)

/-- The condition on a fact. Only facts with "=" are compared with the key. -/
def isStated (key : Option Str) (f : Fact) : Option Bool :=
  if strstr (joinWords f.verbs) ['='] then
    key.map fun key => decide (joinWords f.objects = key) && !strstr f.filename "fa-".toList
  else some false

/-- The loop over `i`, up to the first null pointer. -/
def statedPairs (key : Option Str) : List Pointer → Option (List StringPair)
  | some a :: unfiltered => do
      let f ← s.facts[a]?
      let stated ← isStated key f
      let pairs ← statedPairs key unfiltered
      return if stated then f.pair :: pairs else pairs
  | _ => some []

/-- The loop over `k`. The position stays, but each key gets an array of its own. -/
def thesaurusLoop (key : Option Str) (position : Nat) : List Str → Option (List StringPair)
  | [] => some []
  | k :: keys => do
      let unfiltered ← relatedFactsOfStr s limit k position
      let pairs ← statedPairs s key unfiltered
      let rest ← thesaurusLoop key unfiltered.length keys
      return pairs ++ rest

/-- The pairs that are added. -/
def ramGetThesaurusSynonyms (key : Option Str) (keys : Option (List Str)) :
    Option (List StringPair) :=
  match keys with
  | some keys => thesaurusLoop s limit key 0 keys
  | none => if key.getD [] = [] then some [] else thesaurusLoop s limit none 0 [key.getD []]

end

/-- The two ways of calling: with one key, and with a list of keys. -/
inductive Call where
  | single (key : Str)
  | list (keys : List Str)

/-- An empty text is no key. -/
def Call.keys : Call → List Str
  | .single key => if key = [] then [] else [key]
  | .list keys => keys

def Call.run (s : Engine) (limit : Nat) : Call → Option (List StringPair)
  | .single key => ramGetThesaurusSynonyms s limit (some key) none
  | .list keys => ramGetThesaurusSynonyms s limit none (some keys)

/-! ## What is to be found -/

/-- The fact states by "=" that its subjects equal the key. -/
structure StatesEqual (f : Fact) (key : Str) : Prop where
  verbs : strstr (joinWords f.verbs) ['='] = true
  objects : joinWords f.objects = key
  filename : strstr f.filename "fa-".toList = false

/-- No null pointer is followed, and no fact about a key is missing. -/
def CoversEveryKey (s : Engine) (limit : Nat) (call : Call) : Prop :=
  ∃ pairs, call.run s limit = some pairs ∧
    ∀ key ∈ call.keys, ∀ f ∈ s.facts, StatesEqual f key → f.pair ∈ pairs

/-- The keys are words of the net, no fact is about one of them, and none of the first different
facts of the first key has "=" among its verbs. -/
structure NothingToFind (s : Engine) (limit : Nat) (keys : List Str) : Prop where
  known : ∀ key ∈ keys, key ≠ [] ∧ s.relatedFacts ⟨key⟩ ≠ []
  first : ∀ key, keys.head? = some key → ∀ a ∈ collect limit [] (s.relatedFacts ⟨key⟩),
    ∀ f, s.facts[a]? = some f → strstr (joinWords f.verbs) ['='] = false
  unstated : ∀ key ∈ keys, ∀ f ∈ s.facts, ¬ StatesEqual f key

variable {s : Engine} {log : Log} {limit position : Nat} {key : Option Str} {k : Str}
  {keys : List Str} {related : List Nat} {call : Call}

/-! ## The facts of one key -/

/-- A list that begins with a null pointer is not read at all. -/
theorem statedPairs_relatedFactsOfWord (h : 0 < position ∨ limit = 0) :
    statedPairs s key (relatedFactsOfWord limit related position) = some [] := by
  rcases h with h | rfl
  · obtain ⟨n, rfl⟩ : ∃ n, position = n + 1 := ⟨position - 1, by omega⟩
    obtain ⟨rest, hrest⟩ :=
      Lib.prefix_collect limit (List.replicate (n + 1) none) (related.map some)
    rw [relatedFactsOfWord, ← hrest, List.replicate_succ, List.cons_append]
    rfl
  · have hfull : ¬ ((List.replicate position (none : Pointer)).length : Int) < (0 : Nat) := by
      omega
    rw [relatedFactsOfWord, Lib.collect_of_full hfull]
    cases position with
    | zero => rfl
    | succ n => rfl

theorem relatedFactsOfWord_zero (limit : Nat) (related : List Nat) :
    relatedFactsOfWord limit related 0 = (collect limit [] related).map some :=
  Lib.collect_map (fun _ _ h => Option.some.inj h) limit [] related

/-- The next position is behind the first fact. -/
theorem length_relatedFactsOfWord (h : related ≠ []) :
    0 < (relatedFactsOfWord limit related 0).length ∨ limit = 0 := by
  obtain ⟨a, related, rfl⟩ := List.exists_cons_of_ne_nil h
  by_cases hlimit : limit = 0
  · exact Or.inr hlimit
  · have hprefix := Lib.prefix_collect limit [a] related
    have hlt : ((([] : List Nat).length : Nat) : Int) < limit := by
      rw [List.length_nil]
      omega
    rw [relatedFactsOfWord_zero, List.length_map, collect, if_pos hlt]
    exact Or.inl (Nat.lt_of_lt_of_le (by simp) hprefix.length_le)

/-- The facts have no "=" among their verbs. -/
def WithoutEqual (s : Engine) (facts : List Nat) : Prop :=
  ∀ a ∈ facts, ∀ f, s.facts[a]? = some f → strstr (joinWords f.verbs) ['='] = false

theorem isStated_none_eq_some {f : Fact} {stated : Bool} (h : isStated none f = some stated) :
    strstr (joinWords f.verbs) ['='] = false ∧ stated = false := by
  unfold isStated at h
  split at h
  · cases h
  · case isFalse hequal => exact ⟨by simpa using hequal, (Option.some.inj h).symm⟩

/-- Without a key, a fact with "=" ends the call, and any other one adds nothing. -/
theorem statedPairs_none_iff {facts : List Nat} (hfacts : ∀ a ∈ facts, a < s.facts.length)
    (pairs : List StringPair) :
    statedPairs s none (facts.map some) = some pairs ↔ WithoutEqual s facts ∧ pairs = [] := by
  induction facts generalizing pairs with
  | nil =>
      have hnil : WithoutEqual s [] := fun a ha => by cases ha
      exact ⟨fun h => ⟨hnil, (Option.some.inj h).symm⟩, fun h => congrArg some h.2.symm⟩
  | cons a facts ih =>
      have hrest := ih fun b hb => hfacts b (by simp [hb])
      obtain ⟨f, ha⟩ : ∃ f, s.facts[a]? = some f :=
        ⟨_, List.getElem?_eq_getElem (hfacts a (by simp))⟩
      have hcons : WithoutEqual s (a :: facts) ↔
          strstr (joinWords f.verbs) ['='] = false ∧ WithoutEqual s facts := by
        unfold WithoutEqual
        rw [List.forall_mem_cons, ha]
        simp
      rw [hcons, List.map_cons, statedPairs, ha]
      simp only [Option.bind_eq_bind, Option.bind_some, Option.bind_eq_some_iff, Option.pure_def,
        Option.some.injEq]
      constructor
      · rintro ⟨stated, hstated, pairs', hpairs', rfl⟩
        obtain ⟨hequal, rfl⟩ := isStated_none_eq_some hstated
        obtain ⟨hwithout, rfl⟩ := (hrest pairs').mp hpairs'
        exact ⟨⟨hequal, hwithout⟩, rfl⟩
      · rintro ⟨⟨hequal, hwithout⟩, rfl⟩
        exact ⟨false, by simp [isStated, hequal], [], (hrest []).mpr ⟨hwithout, rfl⟩, rfl⟩

/-! ## The loop over the keys -/

/-- The keys are words that are in facts. -/
def Known (s : Engine) (keys : List Str) : Prop :=
  ∀ key ∈ keys, key ≠ [] ∧ s.relatedFacts ⟨key⟩ ≠ []

theorem relatedFactsOfStr_eq_some {unfiltered : List Pointer} :
    relatedFactsOfStr s limit k position = some unfiltered ↔
      (k ≠ [] ∧ s.relatedFacts ⟨k⟩ ≠ []) ∧
        relatedFactsOfWord limit (s.relatedFacts ⟨k⟩) position = unfiltered := by
  unfold relatedFactsOfStr
  split
  · case isTrue h => simp; tauto
  · case isFalse h => simp; tauto

/-- Behind the first key nothing is seen. -/
theorem thesaurusLoop_of_position (h : 0 < position ∨ limit = 0) (pairs : List StringPair) :
    thesaurusLoop s limit key position keys = some pairs ↔ Known s keys ∧ pairs = [] := by
  induction keys generalizing position pairs with
  | nil =>
      have hnil : Known s [] := fun k hk => by cases hk
      exact ⟨fun h => ⟨hnil, (Option.some.inj h).symm⟩, fun h => congrArg some h.2.symm⟩
  | cons k keys ih =>
      have hnext : 0 < (relatedFactsOfWord limit (s.relatedFacts ⟨k⟩) position).length
          ∨ limit = 0 := by
        have hprefix := Lib.prefix_collect limit (List.replicate position none)
          ((s.relatedFacts ⟨k⟩).map some)
        have hlen := hprefix.length_le
        rw [List.length_replicate] at hlen
        rcases h with h | h
        · exact Or.inl (Nat.lt_of_lt_of_le h hlen)
        · exact Or.inr h
      simp only [thesaurusLoop, Option.bind_eq_bind, Option.bind_eq_some_iff, Option.pure_def,
        Option.some.injEq, relatedFactsOfStr_eq_some]
      constructor
      · rintro ⟨_, ⟨hknown, rfl⟩, pairs', hpairs', rest, hrest, rfl⟩
        rw [statedPairs_relatedFactsOfWord h, Option.some.injEq] at hpairs'
        obtain ⟨hall, rfl⟩ := (ih hnext rest).mp hrest
        exact ⟨List.forall_mem_cons.mpr ⟨hknown, hall⟩, by rw [← hpairs', List.nil_append]⟩
      · rintro ⟨hknown, rfl⟩
        obtain ⟨hk, hall⟩ := List.forall_mem_cons.mp hknown
        exact ⟨_, ⟨hk, rfl⟩, [], statedPairs_relatedFactsOfWord h, [],
          (ih hnext []).mpr ⟨hall, rfl⟩, rfl⟩

/-- The first key is the only one whose facts are read, and none of them is added. -/
theorem thesaurusLoop_zero_iff (hfacts : ∀ w, ∀ a ∈ s.relatedFacts w, a < s.facts.length)
    (pairs : List StringPair) :
    thesaurusLoop s limit none 0 keys = some pairs ↔
      (Known s keys ∧ ∀ k, keys.head? = some k →
        WithoutEqual s (collect limit [] (s.relatedFacts ⟨k⟩))) ∧ pairs = [] := by
  cases keys with
  | nil =>
      have hnil : Known s [] := fun k hk => by cases hk
      exact ⟨fun h => ⟨⟨hnil, fun k hk => by cases hk⟩, (Option.some.inj h).symm⟩,
        fun h => congrArg some h.2.symm⟩
  | cons k keys =>
      have hread : ∀ a ∈ collect limit [] (s.relatedFacts ⟨k⟩), a < s.facts.length := by
        intro a ha
        rcases Lib.mem_collect ha with ha | ha
        · cases ha
        · exact hfacts _ a ha
      simp only [thesaurusLoop, Option.bind_eq_bind, Option.bind_eq_some_iff, Option.pure_def,
        Option.some.injEq, relatedFactsOfStr_eq_some, List.head?_cons, forall_eq']
      constructor
      · rintro ⟨_, ⟨hknown, rfl⟩, pairs', hpairs', rest, hrest, rfl⟩
        rw [relatedFactsOfWord_zero] at hpairs'
        obtain ⟨hwithout, rfl⟩ := (statedPairs_none_iff hread pairs').mp hpairs'
        have hnext := @length_relatedFactsOfWord limit _ hknown.2
        obtain ⟨hall, rfl⟩ := (thesaurusLoop_of_position hnext rest).mp hrest
        exact ⟨⟨List.forall_mem_cons.mpr ⟨hknown, hall⟩, hwithout⟩, rfl⟩
      · rintro ⟨⟨hknown, hwithout⟩, rfl⟩
        obtain ⟨hk, hall⟩ := List.forall_mem_cons.mp hknown
        refine ⟨_, ⟨hk, rfl⟩, [], ?_, [], ?_, rfl⟩
        · rw [relatedFactsOfWord_zero]
          exact (statedPairs_none_iff hread []).mpr ⟨hwithout, rfl⟩
        · exact (thesaurusLoop_of_position (length_relatedFactsOfWord hk.2) []).mpr ⟨hall, rfl⟩

/-! ## Any call -/

theorem run_eq_thesaurusLoop (s : Engine) (limit : Nat) (call : Call) :
    call.run s limit = thesaurusLoop s limit none 0 call.keys := by
  cases call with
  | single key =>
      simp only [Call.run, Call.keys, ramGetThesaurusSynonyms, Option.getD_some]
      split <;> rfl
  | list keys => rfl

theorem Indexed.relatedFacts_lt (h : Indexed s log) (w : Word) :
    ∀ a ∈ s.relatedFacts w, a < s.facts.length := by
  intro a ha
  obtain ⟨c, onlyLogic, hmem, -⟩ := (h.related w a).mp ha
  exact h.fresh _ a hmem

/-- A call follows no null pointer and finds all facts about its keys exactly when there is
nothing to find. -/
theorem coversEveryKey_iff {is : List Insertion} (hrun : runInsertions is = some (s, log))
    (limit : Nat) (call : Call) :
    CoversEveryKey s limit call ↔ NothingToFind s limit call.keys := by
  have hindexed : Indexed s log := indexed_ramBegin.runFrom hrun
  have hloop := @thesaurusLoop_zero_iff s limit call.keys hindexed.relatedFacts_lt
  unfold CoversEveryKey
  rw [run_eq_thesaurusLoop]
  constructor
  · rintro ⟨pairs, hpairs, hall⟩
    obtain ⟨⟨hknown, hfirst⟩, rfl⟩ := (hloop pairs).mp hpairs
    exact ⟨hknown, hfirst, fun k hk f hf hstates => by cases hall k hk f hf hstates⟩
  · intro hnothing
    refine ⟨[], (hloop []).mpr ⟨⟨hnothing.known, hnothing.first⟩, rfl⟩, ?_⟩
    exact fun k hk f hf hstates => absurd hstates (hnothing.unstated k hk f hf)

/-- A cat is an animal. -/
def katzeTier : Columns :=
  { shortFact with subjects := "katze".toList, objects := "tier".toList, verbs := ['='] }

theorem coversEveryKey_iff_katzeTier :
    ∃ s log, runInsertions [.fact katzeTier false] = some (s, log) ∧
      (CoversEveryKey s 20000 (.single "katze".toList) ↔
        NothingToFind s 20000 ["katze".toList]) := by
  obtain ⟨⟨s, log⟩, hrun⟩ := Option.isSome_iff_exists.mp
    (by decide +kernel : (runInsertions [.fact katzeTier false]).isSome = true)
  exact ⟨s, log, hrun, coversEveryKey_iff hrun 20000 (.single "katze".toList)⟩

theorem not_coversEveryKey_of_isNone (h : (call.run s limit).isNone = true) :
    ¬ CoversEveryKey s limit call := by
  rintro ⟨pairs, hpairs, -⟩
  rw [hpairs] at h
  cases h

/-- Asking for the animal follows a null pointer in both ways of calling. -/
theorem tier_not_covered :
    ∃ s log, runInsertions [.fact katzeTier false] = some (s, log) ∧
      ¬ CoversEveryKey s 20000 (.single "tier".toList) ∧
        ¬ CoversEveryKey s 20000 (.list ["tier".toList]) := by
  have hany : (runInsertions [.fact katzeTier false]).any (fun r =>
      ((Call.single "tier".toList).run r.1 20000).isNone &&
        ((Call.list ["tier".toList]).run r.1 20000).isNone) = true := by decide +kernel
  rw [Option.any_eq_true] at hany
  obtain ⟨⟨s, log⟩, hrun, hnone⟩ := hany
  rw [Bool.and_eq_true] at hnone
  exact ⟨s, log, hrun, not_coversEveryKey_of_isNone hnone.1, not_coversEveryKey_of_isNone hnone.2⟩

end Freehal.Ram
