import Freehal.Disk.Thesaurus
import Freehal.Ram.Thesaurus

/-!
# Searching for synonyms in memory

`add_synonyms_by_search` with `ram_get_thesaurus_synonyms`. The levels above the first one go over
the pairs of the first one and read a pointer that was never set, so there is no result where there
are pairs.
-/

namespace Freehal.Ram

open Disk (addSynonymsBySearch canBeAMainSynonym expressionsFrom putFound searchBack searchFor
  searchFurther searchLevel searchLimit synonymsToExpressions)
open Lib (collect)
open Universal (joinWords)
open Universal.Negotiating (Synonym forward)
open Universal.SynonymLists (SynonymList holds_prepareSynonyms prepareSynonyms putSynonym)

/-- `ram_get_thesaurus_synonyms` at any level. The direction is not read. -/
def getThesaurusSynonyms (s : Engine) (key : Option Str) (keys : Option (List Str))
    (limit level : Nat) (_ : Bool) : Option (List Str) :=
  if level = 0 then some []
  else
    match ramGetThesaurusSynonyms s limit key keys with
    | some [] => some []
    | some pairs => if level = 1 then some (pairs.map (·.subjects)) else none
    | none => none

/-- The search for these keys follows no null pointer: they are words of facts, and none of the
first different facts of the first one has "=" among its verbs. -/
def Silent (s : Engine) (limit : Nat) (keys : List Str) : Prop :=
  Known s keys ∧ ∀ k, keys.head? = some k →
    WithoutEqual s (collect limit [] (s.relatedFacts ⟨k⟩))

variable {s : Engine} {log : Log} {limit level : Nat} {back : Bool} {found : List Str}
  {exp category : Str} {list list' : SynonymList} {entries : List Synonym}

theorem silent_nil : Silent s limit [] :=
  ⟨fun k hk => (by cases hk), fun k hk => (by cases hk)⟩

/-! ## Any level -/

/-- A call that has a result finds nothing, at any level. -/
theorem getThesaurusSynonyms_iff (hfacts : ∀ w, ∀ a ∈ s.relatedFacts w, a < s.facts.length)
    (hlevel : level ≠ 0) (key : Option Str) (keys : Option (List Str)) (call : Call)
    (hcall : ramGetThesaurusSynonyms s limit key keys = call.run s limit) :
    getThesaurusSynonyms s key keys limit level back = some found ↔
      Silent s limit call.keys ∧ found = [] := by
  have hloop := @thesaurusLoop_zero_iff s limit call.keys hfacts
  rw [getThesaurusSynonyms, if_neg hlevel, hcall, run_eq_thesaurusLoop]
  cases hpairs : thesaurusLoop s limit none 0 call.keys with
  | none =>
      have hnot : ¬ Silent s limit call.keys := fun hsilent => by
        rw [(hloop []).mpr ⟨hsilent, rfl⟩] at hpairs
        cases hpairs
      simp [hnot]
  | some pairs =>
      obtain ⟨hsilent, rfl⟩ := (hloop pairs).mp hpairs
      have hyes : Silent s limit call.keys := hsilent
      simp [hyes, eq_comm]

theorem getThesaurusSynonyms_list_iff
    (hfacts : ∀ w, ∀ a ∈ s.relatedFacts w, a < s.facts.length) (hlevel : level ≠ 0)
    (keys : List Str) : getThesaurusSynonyms s none (some keys) limit level back = some found ↔
      Silent s limit keys ∧ found = [] :=
  getThesaurusSynonyms_iff hfacts hlevel none (some keys) (.list keys) rfl

theorem getThesaurusSynonyms_single_iff
    (hfacts : ∀ w, ∀ a ∈ s.relatedFacts w, a < s.facts.length) (hlevel : level ≠ 0) (exp : Str) :
    getThesaurusSynonyms s (some exp) none limit level back = some found ↔
      Silent s limit (Call.single exp).keys ∧ found = [] :=
  getThesaurusSynonyms_iff hfacts hlevel (some exp) none (.single exp) rfl

/-! ## The rounds of the search -/

theorem expressionsFrom_eq (h : Universal.SynonymLists.Holds list entries) {n u : Nat}
    (hn : n + u = entries.length) :
    expressionsFrom list n u = some ((entries.drop u).map fun syn => joinWords syn.words) := by
  have hbound := h.bound
  induction n generalizing u with
  | zero =>
      rw [List.drop_eq_nil_of_le (by omega)]
      rfl
  | succ n ih =>
      have hlt : u < entries.length := by omega
      have hrest := @ih (u + 1) (by omega)
      have hread := h.read u (by omega)
      rw [List.getElem?_eq_getElem hlt] at hread
      rw [expressionsFrom, hread, List.drop_eq_getElem_cons hlt, List.map_cons]
      simp only [Option.bind_eq_bind, Option.bind_some, hrest]
      rfl

/-- The expressions for all entries of a list. -/
def expressions (entries : List Synonym) : List Str := entries.map fun syn => joinWords syn.words

theorem searchLevel_iff (hfacts : ∀ w, ∀ a ∈ s.relatedFacts w, a < s.facts.length)
    (h : Universal.SynonymLists.Holds list entries) :
    searchLevel (getThesaurusSynonyms s) 1 0 list.position list = some list' ↔
      Silent s searchLimit (expressions entries) ∧ list' = list := by
  have hexps : synonymsToExpressions list 0 list.position = some (expressions entries) := by
    rw [synonymsToExpressions, Nat.sub_zero]
    exact expressionsFrom_eq h h.position
  unfold searchLevel
  by_cases hempty : entries = []
  · subst hempty
    have hposition : list.position = 0 := h.position
    have hsilent : Silent s searchLimit (expressions []) := silent_nil
    simp [hposition, hsilent, eq_comm]
  · have hpos : 0 < list.position - 0 := by
      rw [h.position, Nat.sub_zero]
      exact List.length_pos_iff.mpr hempty
    rw [if_pos hpos]
    simp only [Option.bind_eq_bind, hexps, Option.bind_some, Option.bind_eq_some_iff,
      getThesaurusSynonyms_list_iff hfacts Nat.one_ne_zero]
    constructor
    · rintro ⟨found, ⟨hsilent, rfl⟩, hput⟩
      cases hput
      exact ⟨hsilent, rfl⟩
    · rintro ⟨hsilent, rfl⟩
      exact ⟨[], ⟨hsilent, rfl⟩, rfl⟩

/-- There are no entries between two equal positions. -/
theorem searchFurther_self (level a : Nat) :
    searchFurther (getThesaurusSynonyms s) level a a list = some list := by
  simp [searchFurther, searchLevel]

theorem searchBack_iff (hfacts : ∀ w, ∀ a ∈ s.relatedFacts w, a < s.facts.length) :
    searchBack (getThesaurusSynonyms s) category exp list = some list' ↔
      (category = "extra".toList ∨ category = "adverbs-parts".toList →
        Silent s searchLimit (Call.single exp).keys) ∧ list' = list := by
  unfold searchBack
  by_cases hcategory : category = "extra".toList ∨ category = "adverbs-parts".toList
  · rw [if_pos hcategory]
    simp only [Option.bind_eq_bind, Option.bind_eq_some_iff,
      getThesaurusSynonyms_single_iff hfacts (Nat.succ_ne_zero 1)]
    constructor
    · rintro ⟨found, ⟨hsilent, rfl⟩, hput⟩
      cases hput
      exact ⟨fun _ => hsilent, rfl⟩
    · rintro ⟨hsilent, rfl⟩
      exact ⟨[], ⟨hsilent hcategory, rfl⟩, rfl⟩
  · rw [if_neg hcategory, Option.some.injEq]
    constructor
    · rintro rfl
      exact ⟨fun hyes => absurd hyes hcategory, rfl⟩
    · rintro ⟨-, rfl⟩
      rfl

/-- The condition on an expression. -/
def SilentFor (s : Engine) (entries : List Synonym) (category exp : Str) : Prop :=
  canBeAMainSynonym exp = true → Silent s searchLimit (expressions entries) ∧
    (category = "extra".toList ∨ category = "adverbs-parts".toList →
      Silent s searchLimit (Call.single exp).keys)

theorem searchFor_iff (hfacts : ∀ w, ∀ a ∈ s.relatedFacts w, a < s.facts.length)
    (h : Universal.SynonymLists.Holds list entries) :
    searchFor (getThesaurusSynonyms s) category exp list = some list' ↔
      SilentFor s entries category exp ∧ list' = list := by
  unfold searchFor SilentFor
  by_cases hmain : canBeAMainSynonym exp = true
  · rw [if_pos hmain]
    simp only [Option.bind_eq_bind, Option.bind_eq_some_iff, searchLevel_iff hfacts h]
    constructor
    · rintro ⟨list₁, ⟨hsilent, rfl⟩, list₂, h₂, list₃, h₃, hback⟩
      rw [searchFurther_self, Option.some.injEq] at h₂
      subst h₂
      rw [searchFurther_self, Option.some.injEq] at h₃
      subst h₃
      obtain ⟨hsingle, rfl⟩ := (searchBack_iff hfacts).mp hback
      exact ⟨fun _ => ⟨hsilent, hsingle⟩, rfl⟩
    · rintro ⟨hsilent, rfl⟩
      obtain ⟨hlist, hsingle⟩ := hsilent hmain
      exact ⟨list', ⟨hlist, rfl⟩, list', searchFurther_self _ _, list', searchFurther_self _ _,
        (searchBack_iff hfacts).mpr ⟨hsingle, rfl⟩⟩
  · rw [if_neg hmain]
    simp [hmain, eq_comm]

theorem addSynonymsBySearch_silent (hfacts : ∀ w, ∀ a ∈ s.relatedFacts w, a < s.facts.length)
    (h : Universal.SynonymLists.Holds list entries) (exps : List Str) :
    addSynonymsBySearch (getThesaurusSynonyms s) exps category list = some list' ↔
      (∀ exp ∈ exps, SilentFor s entries category exp) ∧ list' = list := by
  induction exps with
  | nil => simp [addSynonymsBySearch, eq_comm]
  | cons exp exps ih =>
      rw [addSynonymsBySearch] at ih
      rw [addSynonymsBySearch, List.foldlM_cons, List.forall_mem_cons]
      simp only [Option.bind_eq_bind, Option.bind_eq_some_iff, searchFor_iff hfacts h]
      constructor
      · rintro ⟨list₁, ⟨hexp, rfl⟩, hrest⟩
        obtain ⟨hexps, rfl⟩ := ih.mp hrest
        exact ⟨⟨hexp, hexps⟩, rfl⟩
      · rintro ⟨⟨hexp, hexps⟩, rfl⟩
        exact ⟨list', ⟨hexp, rfl⟩, ih.mpr ⟨hexps, rfl⟩⟩

/-- Whatever was inserted, a search adds no synonym to any list. It has a result exactly when it
follows no null pointer. -/
theorem addSynonymsBySearch_iff {is : List Insertion} (hrun : runInsertions is = some (s, log))
    (hlist : Universal.SynonymLists.Holds list entries) (exps : List Str) (category : Str)
    (list' : SynonymList) :
    addSynonymsBySearch (getThesaurusSynonyms s) exps category list = some list' ↔
      (∀ exp ∈ exps, SilentFor s entries category exp) ∧ list' = list := by
  have hindexed : Indexed s log := indexed_ramBegin.runFrom hrun
  exact addSynonymsBySearch_silent hindexed.relatedFacts_lt hlist exps

def cat : Synonym := ⟨[⟨"katze".toList⟩], 0, forward⟩

theorem addSynonymsBySearch_iff_cat :
    ∃ s log list, runInsertions [.fact katzeTier false] = some (s, log) ∧
      putSynonym prepareSynonyms cat = some list ∧ ∀ list',
        addSynonymsBySearch (getThesaurusSynonyms s) ["katze".toList] "extra".toList list
          = some list' ↔
          (∀ exp ∈ ["katze".toList], SilentFor s [cat] "extra".toList exp) ∧ list' = list := by
  obtain ⟨⟨s, log⟩, hrun⟩ := Option.isSome_iff_exists.mp
    (by decide +kernel : (runInsertions [.fact katzeTier false]).isSome = true)
  obtain ⟨list, hput, hholds⟩ := holds_prepareSynonyms.putSynonym cat
  exact ⟨s, log, list, hrun, hput, addSynonymsBySearch_iff hrun hholds _ _⟩

end Freehal.Ram
