import Freehal.Index.FactIndex

/-!
# What the databases of the index hold

A database is described by the pairs of a key and a hash code that it holds, because facts with
equal hash codes are equal to the sets of the index.
-/

namespace Freehal.Index
open Lib

variable {σ α : Type} (kv : KeyValueDatabase σ α) (F : Facts α)

/-- The keys under which a fact is stored. -/
def Facts.keys (x : α) : List Str := (F.getWords x).map getKey

/-- Some fact of `xs` has the key and the hash code. -/
def Facts.Indexed (xs : List α) (key : Str) (h : Int) : Prop :=
  ∃ x ∈ xs, key ∈ F.keys x ∧ F.hashCode x = h

/-- The database `name` holds a fact with this hash code under the key. -/
def Content (s : σ) (name key : Str) (h : Int) : Prop :=
  ∃ x ∈ kv.entry s name key, F.hashCode x = h

def InCache (cache : HashMap Str (List α)) (key : Str) (h : Int) : Prop :=
  ∃ e ∈ cache, e.1 = key ∧ ∃ x ∈ e.2, F.hashCode x = h

variable {kv F}

/-! ## Hash sets -/

theorem exists_mem_hashSetAdd {set : List α} {x : α} {h : Int} :
    (∃ y ∈ hashSetAdd F set x, F.hashCode y = h) ↔ (∃ y ∈ set, F.hashCode y = h) ∨ F.hashCode x = h := by
  unfold hashSetAdd
  split
  · rename_i hany
    obtain ⟨z, hz, hzx⟩ := List.any_eq_true.mp hany
    constructor
    · exact Or.inl
    · rintro (hy | rfl)
      · exact hy
      · exact ⟨z, hz, by simpa using hzx⟩
  · constructor
    · rintro ⟨y, hy, rfl⟩
      rcases List.mem_append.mp hy with hy | hy
      · exact Or.inl ⟨y, hy, rfl⟩
      · rw [List.mem_singleton.mp hy]; exact Or.inr rfl
    · rintro (⟨y, hy, rfl⟩ | rfl)
      · exact ⟨y, by simp [hy], rfl⟩
      · exact ⟨x, by simp, rfl⟩

theorem exists_mem_foldl_hashSetAdd {set xs : List α} {h : Int} :
    (∃ y ∈ xs.foldl (hashSetAdd F) set, F.hashCode y = h)
      ↔ (∃ y ∈ set, F.hashCode y = h) ∨ ∃ y ∈ xs, F.hashCode y = h := by
  induction xs generalizing set with
  | nil => simp
  | cons x xs ih =>
      rw [List.foldl_cons, ih, exists_mem_hashSetAdd, or_assoc]
      simp

/-! ## The cache in memory -/

theorem inCache_nil {key : Str} {h : Int} : ¬ InCache F [] key h := fun ⟨_, he, _⟩ => nomatch he

theorem inCache_of_unique {cache : HashMap Str (List α)} (hu : cache.Unique) {key : Str} {h : Int} :
    InCache F cache key h ↔ ∃ x ∈ (cache.get key).getD [], F.hashCode x = h := by
  constructor
  · rintro ⟨⟨k, v⟩, he, rfl, x, hx, rfl⟩
    exact ⟨x, by rw [hu.get he]; exact hx, rfl⟩
  · rintro ⟨x, hx, rfl⟩
    cases hg : cache.get key with
    | none => simp [hg] at hx
    | some v =>
        rw [hg] at hx
        exact ⟨(key, v), HashMap.mem_of_get hg, rfl, x, hx, rfl⟩

theorem inCache_addWord {cache : HashMap Str (List α)} (hu : cache.Unique) {x : α} {w key : Str}
    {h : Int} :
    InCache F (addWord F x cache w) key h
      ↔ InCache F cache key h ∨ (key = getKey w ∧ F.hashCode x = h) := by
  have hu' : (addWord F x cache w).Unique := hu.put _ _
  have hget : (addWord F x cache w).get (getKey w)
      = some (hashSetAdd F ((cache.get (getKey w)).getD []) x) :=
    hu'.get (HashMap.mem_put_self _ _ _)
  by_cases hk : key = getKey w
  · subst hk
    rw [inCache_of_unique hu', inCache_of_unique hu, hget, Option.getD_some, exists_mem_hashSetAdd]
    simp
  · simp only [hk, false_and, or_false]
    constructor
    · rintro ⟨e, he, rfl, hx⟩
      rcases HashMap.mem_put he with rfl | he
      · exact absurd rfl hk
      · exact ⟨e, he, rfl, hx⟩
    · rintro ⟨e, he, rfl, hx⟩
      exact ⟨e, HashMap.mem_put_of_ne he hk, rfl, hx⟩

/-- All words of a fact. -/
theorem inCache_addWords (F : Facts α) (x : α) (ws : List Str) {cache : HashMap Str (List α)}
    (hu : cache.Unique) :
    (ws.foldl (addWord F x) cache).Unique ∧ ∀ key h,
      InCache F (ws.foldl (addWord F x) cache) key h
        ↔ InCache F cache key h ∨ (key ∈ ws.map getKey ∧ F.hashCode x = h) := by
  induction ws generalizing cache with
  | nil => exact ⟨hu, by simp⟩
  | cons w ws ih =>
      obtain ⟨hu', ih⟩ := ih (show (addWord F x cache w).Unique from hu.put _ _)
      refine ⟨hu', fun key h => ?_⟩
      rw [List.foldl_cons, ih, inCache_addWord hu, or_assoc, List.map_cons, List.mem_cons, or_and_right]

/-! ## Writing the cache -/

theorem foldl_set_entry {l : List (Str × List α)} (hl : l.Pairwise (·.1 ≠ ·.1)) {s : σ} {name : Str}
    (hs : ∀ e ∈ l, kv.entry s name e.1 = []) (name' key : Str) :
    kv.entry (l.foldl (fun s e => kv.set s e.1 e.2 name) s) name' key
      = if name' = name then ((l.find? (·.1 = key)).map (·.2)).getD (kv.entry s name key)
        else kv.entry s name' key := by
  induction l generalizing s with
  | nil => by_cases h : name' = name <;> simp [h]
  | cons e l ih =>
      obtain ⟨he, hl⟩ := List.pairwise_cons.mp hl
      have hset := kv.entry_set s e.1 e.2 name (hs e (by simp))
      have hs' : ∀ d ∈ l, kv.entry (kv.set s e.1 e.2 name) name d.1 = [] := by
        intro d hd
        rw [hset, if_neg fun hk => he d hd hk.2.symm]
        exact hs d (by simp [hd])
      rw [List.foldl_cons, ih hl hs', hset, hset]
      by_cases hn : name' = name
      · by_cases hk : key = e.1
        · subst hk
          have hnone : l.find? (·.1 = e.1) = none :=
            List.find?_eq_none.mpr fun d hd hc => he d hd (of_decide_eq_true hc).symm
          simp [hn, hnone]
        · have hk' : ¬ e.1 = key := fun hc => hk hc.symm
          simp [hn, hk, hk']
      · simp [hn]

theorem writeCache_content {ord : HashOrder} {s : σ} {cache : HashMap Str (List α)}
    (hu : cache.Unique) {name name' key : Str} {h : Int} :
    Content kv F (writeCache kv ord s cache name) name' key h
      ↔ if name' = name then InCache F cache key h else Content kv F s name' key h := by
  have hperm := ord.perm cache
  have hu' : (ord.enum cache).Pairwise (·.1 ≠ ·.1) :=
    (hperm.pairwise_iff fun hab hba => hab hba.symm).mpr hu
  have hrem := kv.entry_removeEverything s name
  have hempty : ∀ e ∈ ord.enum cache, kv.entry (kv.removeEverything s name) name e.1 = [] :=
    fun e _ => by rw [hrem, if_pos rfl]
  simp only [Content, writeCache, foldl_set_entry hu' hempty, hrem]
  by_cases hn : name' = name
  · simp only [hn, ↓reduceIte]
    have hiff : ∀ v, v ∈ (ord.enum cache).find? (·.1 = key) ↔ v ∈ cache ∧ v.1 = key := by
      intro v
      constructor
      · intro hv
        exact ⟨hperm.mem_iff.mp (List.mem_of_find?_eq_some hv), by simpa using List.find?_some hv⟩
      · rintro ⟨hv, rfl⟩
        have hget : HashMap.get (ord.enum cache) v.1 = some v.2 :=
          HashMap.Unique.get hu' (hperm.mem_iff.mpr hv)
        simp only [HashMap.get, Option.map_eq_some_iff] at hget
        obtain ⟨⟨k, w⟩, hf, hw⟩ := hget
        have hk : k = v.1 := by simpa using List.find?_some hf
        rw [hf]
        exact congrArg some (Prod.ext hk hw)
    constructor
    · rintro ⟨x, hx, rfl⟩
      cases hf : (ord.enum cache).find? (·.1 = key) with
      | none => simp [hf] at hx
      | some v =>
          obtain ⟨hv, hk⟩ := (hiff v).mp hf
          exact ⟨v, hv, hk, x, by simpa [hf] using hx, rfl⟩
    · rintro ⟨v, hv, hk, x, hx, rfl⟩
      have hf : (ord.enum cache).find? (·.1 = key) = some v := (hiff v).mpr ⟨hv, hk⟩
      exact ⟨x, by simpa [hf] using hx, rfl⟩
  · simp only [hn, ↓reduceIte]

/-! ## Reading -/

theorem contains_findFacts {ix : FactIndex σ α} {words : List Str} {x : α} :
    F.contains (FactIndex.findFacts kv F ix words) x
      ↔ ∃ w ∈ words, ∃ name, Content kv F ix.factsCache name (getKey w) (F.hashCode x) := by
  have hkey : ∀ w, (∃ y ∈ FactIndex.findFactsByKey kv F ix (getKey w), F.hashCode y = F.hashCode x)
      ↔ ∃ name, Content kv F ix.factsCache name (getKey w) (F.hashCode x) := by
    intro w
    simp only [FactIndex.findFactsByKey, exists_mem_foldl_hashSetAdd, kv.mem_get, Content]
    constructor
    · rintro (⟨y, hy, _⟩ | ⟨y, ⟨name, hy⟩, heq⟩)
      · cases hy
      · exact ⟨name, y, hy, heq⟩
    · rintro ⟨name, y, hy, heq⟩
      exact Or.inr ⟨y, ⟨name, hy⟩, heq⟩
  have hfold : ∀ found : List α,
      (∃ y ∈ words.foldl (fun found w => (FactIndex.findFactsByKey kv F ix (getKey w)).foldl
          (hashSetAdd F) found) found, F.hashCode y = F.hashCode x)
        ↔ (∃ y ∈ found, F.hashCode y = F.hashCode x)
          ∨ ∃ w ∈ words, ∃ name, Content kv F ix.factsCache name (getKey w) (F.hashCode x) := by
    induction words with
    | nil => simp
    | cons w words ih =>
        intro found
        rw [List.foldl_cons, ih, exists_mem_foldl_hashSetAdd, hkey, or_assoc]
        simp
  simpa [Facts.contains, FactIndex.findFacts] using hfold []

end Freehal.Index
