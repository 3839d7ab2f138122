import Freehal.Index.Lemmas.Content

/-!
# Indexing one file

The facts of a file are written in chunks of `memoryLimit`. The fact at position `j` belongs to
the chunk `j / memoryLimit`, which is written to the database numbered `j / memoryLimit + 1`.
-/

namespace Freehal.Index
open Lib

variable {σ α : Type} {kv : KeyValueDatabase σ α} {F : Facts α} {ord : HashOrder} {memoryLimit : Nat}

theorem dbname_injective {f f' : Str} {i i' : Nat} (h : dbname f i = dbname f' i') :
    f = f' ∧ i = i' := by
  have hno : ∀ n, '-' ∉ decimal n := fun n => not_mem_decimal (by decide)
  obtain ⟨hf, hi⟩ := append_sep_inj_right (hno i) (hno i') h
  exact ⟨hf, decimal_injective hi⟩

/-! ## Chunks -/

/-- Some fact of the chunk has the key and the hash code. -/
def Facts.IndexedAt (F : Facts α) (memoryLimit : Nat) (facts : List α) (chunk : Nat) (key : Str)
    (h : Int) : Prop :=
  ∃ j x, facts[j]? = some x ∧ j / memoryLimit = chunk ∧ key ∈ F.keys x ∧ F.hashCode x = h

theorem indexedAt_append {facts : List α} {x : α} {chunk : Nat} {key : Str} {h : Int} :
    F.IndexedAt memoryLimit (facts ++ [x]) chunk key h
      ↔ F.IndexedAt memoryLimit facts chunk key h
        ∨ (facts.length / memoryLimit = chunk ∧ key ∈ F.keys x ∧ F.hashCode x = h) := by
  constructor
  · rintro ⟨j, y, hj, hrest⟩
    rcases Nat.lt_trichotomy j facts.length with hlt | rfl | hgt
    · rw [List.getElem?_append_left hlt] at hj
      exact Or.inl ⟨j, y, hj, hrest⟩
    · obtain rfl : x = y := by simpa using hj
      exact Or.inr hrest
    · rw [List.getElem?_append_right (by omega), List.getElem?_singleton, if_neg (by omega)] at hj
      cases hj
  · rintro (⟨j, y, hj, hrest⟩ | hrest)
    · have hlt : j < facts.length := (List.getElem?_eq_some_iff.mp hj).1
      exact ⟨j, y, by rwa [List.getElem?_append_left hlt], hrest⟩
    · exact ⟨facts.length, x, by simp, hrest⟩

theorem indexedAt_chunk_le {facts : List α} {chunk : Nat} {key : Str} {h : Int}
    (hi : F.IndexedAt memoryLimit facts chunk key h) :
    facts ≠ [] ∧ chunk ≤ (facts.length - 1) / memoryLimit := by
  obtain ⟨j, x, hj, rfl, _⟩ := hi
  have hlt : j < facts.length := (List.getElem?_eq_some_iff.mp hj).1
  refine ⟨fun hnil => by simp [hnil] at hlt, Nat.div_le_div_right (by omega)⟩

/-! ## Adding facts -/

/-- The updater and the database after `facts` were added for the file `f`; `s₀` is the database
before. -/
structure Progress (kv : KeyValueDatabase σ α) (F : Facts α) (memoryLimit : Nat) (f : Str) (s₀ : σ)
    (facts : List α) (x : Updating σ α) (cache : HashMap Str (List α)) : Prop where
  cache_eq : x.1.cache = some cache
  unique : cache.Unique
  databaseFile : x.1.databaseFile = f
  count : x.1.count = facts.length
  inCache : ∀ key h, InCache F cache key h
    ↔ F.IndexedAt memoryLimit facts (facts.length / memoryLimit) key h
  written : ∀ i key h, i < facts.length / memoryLimit →
    (Content kv F x.2 (dbname f (i + 1)) key h ↔ F.IndexedAt memoryLimit facts i key h)
  frame : ∀ name, (∀ i, i < facts.length / memoryLimit → name ≠ dbname f (i + 1)) →
    ∀ key h, Content kv F x.2 name key h ↔ Content kv F s₀ name key h

theorem Progress.start {f : Str} {s₀ : σ} :
    Progress kv F memoryLimit f s₀ [] (FactCacheUpdater.startUpdateCache {} f, s₀) [] := by
  refine ⟨rfl, HashMap.Unique.nil, rfl, rfl, fun key h => ?_, fun i _ _ hi => ?_, fun _ _ _ _ => Iff.rfl⟩
  · refine iff_of_false inCache_nil ?_
    rintro ⟨j, x, hj, _⟩
    cases hj
  · simp at hi

theorem suffix_of_dvd {count : Nat} (h : count % memoryLimit = 0) :
    suffix memoryLimit count = count / memoryLimit := by
  simp [suffix, h]

/-- One more fact: it joins the chunk in memory, which is written when it is full. -/
theorem Progress.add {f : Str} {s₀ : σ} {facts : List α} {x : Updating σ α}
    {cache : HashMap Str (List α)} (h : Progress kv F memoryLimit f s₀ facts x cache) (xfact : α) :
    ∃ cache', Progress kv F memoryLimit f s₀ (facts ++ [xfact])
      (addToCache kv F ord memoryLimit xfact x) cache' := by
  obtain ⟨u, s⟩ := x
  obtain ⟨hcache, hunique, hfile, hcount, hin, hwritten, hframe⟩ := h
  dsimp only at hcache hfile hcount hwritten hframe
  obtain ⟨hu', hin'⟩ := inCache_addWords F xfact (F.getWords xfact) hunique
  -- the cache holds the last chunk, with the new fact
  have hlast : ∀ key h, InCache F ((F.getWords xfact).foldl (addWord F xfact) cache) key h
      ↔ F.IndexedAt memoryLimit (facts ++ [xfact]) (facts.length / memoryLimit) key h := by
    intro key h
    rw [hin', hin, indexedAt_append]
    simp [Facts.keys]
  have hold : ∀ i key h, i < facts.length / memoryLimit →
      (F.IndexedAt memoryLimit (facts ++ [xfact]) i key h ↔ F.IndexedAt memoryLimit facts i key h) := by
    intro i key h hi
    rw [indexedAt_append]
    constructor
    · rintro (h | ⟨heq, _⟩)
      · exact h
      · omega
    · exact Or.inl
  have hlen : (facts ++ [xfact]).length = facts.length + 1 := by simp
  simp only [addToCache, hcache, hcount]
  by_cases hfull : (facts.length + 1) % memoryLimit = 0 ∧ memoryLimit ≤ facts.length + 1
  · rw [if_pos hfull]
    have hdiv : (facts.length + 1) / memoryLimit = facts.length / memoryLimit + 1 :=
      Nat.succ_div_of_mod_eq_zero hfull.1
    refine ⟨[], rfl, HashMap.Unique.nil, hfile, by simp [stopUpdateCache,
      FactCacheUpdater.startUpdateCache], fun key h => ?_, fun i key h hi => ?_, fun name hname key h => ?_⟩
    · refine iff_of_false inCache_nil fun hat => ?_
      have := (indexedAt_chunk_le hat).2
      rw [hlen, hdiv, Nat.add_sub_cancel] at this
      omega
    · rw [hlen, hdiv] at hi
      simp only [stopUpdateCache, hfile, suffix_of_dvd hfull.1, hdiv]
      rw [writeCache_content hu']
      by_cases heq : i = facts.length / memoryLimit
      · rw [if_pos (by rw [heq]), hlast, heq]
      · have hlt : i < facts.length / memoryLimit := by omega
        rw [if_neg fun hn => heq (by have := (dbname_injective hn).2; omega), hwritten i key h hlt,
          hold i key h hlt]
    · rw [hlen, hdiv] at hname
      simp only [stopUpdateCache, hfile, suffix_of_dvd hfull.1, hdiv]
      rw [writeCache_content hu', if_neg (hname _ (by omega))]
      exact hframe name (fun i hi => hname i (by omega)) key h
  · rw [if_neg hfull]
    have hmod : (facts.length + 1) % memoryLimit ≠ 0 := by
      intro hmod
      exact hfull ⟨hmod, Nat.le_of_dvd (by omega) (Nat.dvd_of_mod_eq_zero hmod)⟩
    have hdiv : (facts.length + 1) / memoryLimit = facts.length / memoryLimit :=
      Nat.succ_div_of_mod_ne_zero hmod
    refine ⟨_, rfl, hu', hfile, by simp, fun key h => ?_, fun i key h hi => ?_, fun name hname => ?_⟩
    · rw [hlen, hdiv]; exact hlast key h
    · rw [hlen, hdiv] at hi
      rw [hold i key h hi]
      exact hwritten i key h hi
    · rw [hlen, hdiv] at hname
      exact hframe name hname

/-- A run of `addToCache` calls. -/
theorem Progress.addAll {f : Str} {s₀ : σ} (facts : List α) :
    ∃ x cache, facts.foldlM (FactIndex.addToCache kv F ord memoryLimit)
        (FactIndex.startUpdateCache ⟨none, s₀⟩ f) = some ⟨some x.1, x.2⟩ ∧
      Progress kv F memoryLimit f s₀ facts x cache := by
  induction facts using List.reverseRecOn with
  | nil => exact ⟨_, [], rfl, Progress.start⟩
  | append_singleton facts xfact ih =>
      obtain ⟨x, cache, hfold, hp⟩ := ih
      obtain ⟨cache', hp'⟩ := hp.add xfact
      refine ⟨_, cache', ?_, hp'⟩
      rw [List.foldlM_append, hfold]
      rfl

/-! ## A whole run -/

/-- The databases that a run with `count` facts writes. -/
def Written (memoryLimit count i : Nat) : Prop :=
  i = suffix memoryLimit count ∨ (1 ≤ i ∧ i ≤ count / memoryLimit)

/-- The facts that are still there after the run: at the end, the last full chunk is overwritten
with an empty one. -/
def kept (memoryLimit : Nat) (facts : List α) : List α :=
  if facts.length % memoryLimit = 0 then facts.take (facts.length - memoryLimit) else facts

/-- The positions of the last full chunk. -/
theorem last_chunk_iff (hlim : 0 < memoryLimit) {n j : Nat} (hmod : n % memoryLimit = 0) (hj : j < n) :
    j / memoryLimit + 1 = n / memoryLimit ↔ n - memoryLimit ≤ j := by
  obtain ⟨q, rfl⟩ := Nat.dvd_of_mod_eq_zero hmod
  rw [Nat.mul_div_cancel_left q hlim]
  cases q with
  | zero => simp at hj
  | succ r =>
      have hsub : memoryLimit * (r + 1) - memoryLimit = r * memoryLimit := by
        rw [Nat.mul_succ, Nat.add_sub_cancel, Nat.mul_comm]
      have hlt : j / memoryLimit < r + 1 := (Nat.div_lt_iff_lt_mul hlim).mpr (by rwa [Nat.mul_comm])
      rw [hsub, ← Nat.le_div_iff_mul_le hlim]
      omega

theorem kept_indexed_iff (hlim : 0 < memoryLimit) {facts : List α} {key : Str} {h : Int} :
    F.Indexed (kept memoryLimit facts) key h
      ↔ ∃ j x, facts[j]? = some x ∧
          ¬ (facts.length % memoryLimit = 0 ∧ j / memoryLimit + 1 = facts.length / memoryLimit) ∧
          key ∈ F.keys x ∧ F.hashCode x = h := by
  have hpos : ∀ x, x ∈ kept memoryLimit facts ↔ ∃ j, facts[j]? = some x ∧
      ¬ (facts.length % memoryLimit = 0 ∧ j / memoryLimit + 1 = facts.length / memoryLimit) := by
    intro x
    unfold kept
    split
    · rename_i hmod
      rw [List.mem_iff_getElem?]
      constructor
      · rintro ⟨j, hj⟩
        rw [List.getElem?_take] at hj
        split at hj
        · rename_i hlt
          have hjn : j < facts.length := (List.getElem?_eq_some_iff.mp hj).1
          exact ⟨j, hj, fun hl => by have := (last_chunk_iff hlim hmod hjn).mp hl.2; omega⟩
        · cases hj
      · rintro ⟨j, hj, hl⟩
        have hjn : j < facts.length := (List.getElem?_eq_some_iff.mp hj).1
        have hlt : ¬ facts.length - memoryLimit ≤ j := fun hle =>
          hl ⟨hmod, (last_chunk_iff hlim hmod hjn).mpr hle⟩
        exact ⟨j, by rw [List.getElem?_take, if_pos (by omega)]; exact hj⟩
    · rename_i hmod
      rw [List.mem_iff_getElem?]
      exact ⟨fun ⟨j, hj⟩ => ⟨j, hj, fun hl => hmod hl.1⟩, fun ⟨j, hj, _⟩ => ⟨j, hj⟩⟩
  constructor
  · rintro ⟨x, hx, hrest⟩
    obtain ⟨j, hj, hl⟩ := (hpos x).mp hx
    exact ⟨j, x, hj, hl, hrest⟩
  · rintro ⟨j, x, hj, hl, hrest⟩
    exact ⟨x, (hpos x).mpr ⟨j, hj, hl⟩, hrest⟩

/-- What the databases hold after a file was indexed. -/
theorem indexFile_content (ix : FactIndex σ α) (f : Str) (facts : List α) :
    ∃ s, FactIndex.indexFile kv F ord memoryLimit ix (f, facts) = some ⟨none, s⟩ ∧
      (∀ i, Written memoryLimit facts.length i → ∀ key h,
        (Content kv F s (dbname f i) key h ↔ ∃ j x, facts[j]? = some x ∧ j / memoryLimit + 1 = i ∧
          ¬ (facts.length % memoryLimit = 0 ∧ i = facts.length / memoryLimit) ∧
          key ∈ F.keys x ∧ F.hashCode x = h)) ∧
      (∀ name, (∀ i, Written memoryLimit facts.length i → name ≠ dbname f i) → ∀ key h,
        (Content kv F s name key h ↔ Content kv F ix.factsCache name key h)) := by
  obtain ⟨⟨u, s⟩, cache, hfold, hp⟩ :=
    Progress.addAll facts
  obtain ⟨hcache, hunique, hfile, hcount, hin, hwritten, hframe⟩ := hp
  dsimp only at hcache hfile hcount hwritten hframe
  refine ⟨writeCache kv ord s cache (dbname f (suffix memoryLimit facts.length)), ?_, ?_, ?_⟩
  · simp only [FactIndex.indexFile, FactIndex.startUpdateCache, Option.bind_eq_bind] at hfold ⊢
    rw [hfold]
    simp [FactIndex.stopUpdateCache, stopUpdateCache, hcache, hfile, hcount]
  · intro i hi key h
    rw [writeCache_content hunique]
    by_cases hs : i = suffix memoryLimit facts.length
    · rw [if_pos (by rw [hs]), hin]
      by_cases hmod : facts.length % memoryLimit = 0
      · rw [suffix_of_dvd hmod] at hs
        refine iff_of_false (fun hat => ?_) ?_
        · obtain ⟨hne, hle⟩ := indexedAt_chunk_le hat
          have hlen : 0 < facts.length := List.length_pos_iff.mpr hne
          have := Nat.div_lt_of_lt_mul (m := facts.length - 1) (n := memoryLimit)
            (k := facts.length / memoryLimit)
            (by rw [Nat.mul_div_cancel' (Nat.dvd_of_mod_eq_zero hmod)]; omega)
          omega
        · rintro ⟨_, _, _, _, hl, _⟩
          exact hl ⟨hmod, hs⟩
      · have hs' : i = facts.length / memoryLimit + 1 := by simpa [suffix, hmod] using hs
        constructor
        · rintro ⟨j, x, hj, hd, hrest⟩
          exact ⟨j, x, hj, by omega, fun hl => hmod hl.1, hrest⟩
        · rintro ⟨j, x, hj, hd, _, hrest⟩
          exact ⟨j, x, hj, by omega, hrest⟩
    · obtain ⟨h1, hle⟩ := hi.resolve_left hs
      obtain ⟨i, rfl⟩ : ∃ i', i = i' + 1 := ⟨i - 1, by omega⟩
      rw [if_neg fun hn => hs (dbname_injective hn).2, hwritten i key h (by omega)]
      constructor
      · rintro ⟨j, x, hj, rfl, hrest⟩
        exact ⟨j, x, hj, rfl, fun hl => hs (by rw [suffix_of_dvd hl.1]; exact hl.2), hrest⟩
      · rintro ⟨j, x, hj, hd, _, hrest⟩
        exact ⟨j, x, hj, by omega, hrest⟩
  · intro name hname key h
    rw [writeCache_content hunique, if_neg (hname _ (Or.inl rfl))]
    exact hframe name (fun i hi => hname (i + 1) (Or.inr ⟨by omega, by omega⟩)) key h

theorem indexFile_total (kv : KeyValueDatabase σ α) (F : Facts α) (ord : HashOrder)
    (memoryLimit : Nat) (ix : FactIndex σ α) (run : Str × List α) :
    ∃ s, FactIndex.indexFile kv F ord memoryLimit ix run = some ⟨none, s⟩ := by
  obtain ⟨s, hs, _⟩ := indexFile_content ix run.1 run.2
  exact ⟨s, hs⟩

/-! ## The facts of a file -/

variable (kv F memoryLimit)

/-- A fact that the databases of the file hold. -/
def Stems (s : σ) (f key : Str) (h : Int) : Prop := ∃ i, Content kv F s (dbname f i) key h

/-- A fact in a database of the file that a run with `count` facts does not write. -/
def Stale (s : σ) (f : Str) (count : Nat) (key : Str) (h : Int) : Prop :=
  ∃ i, ¬ Written memoryLimit count i ∧ Content kv F s (dbname f i) key h

variable {kv F memoryLimit}

theorem written_of_position {n j : Nat} (hj : j < n) : Written memoryLimit n (j / memoryLimit + 1) := by
  have hle : j / memoryLimit ≤ n / memoryLimit := Nat.div_le_div_right (by omega)
  by_cases hd : j / memoryLimit + 1 ≤ n / memoryLimit
  · exact Or.inr ⟨Nat.le_add_left 1 _, hd⟩
  · refine Or.inl ?_
    have heq : j / memoryLimit = n / memoryLimit := by omega
    by_cases hmod : n % memoryLimit = 0
    · have := Nat.div_lt_of_lt_mul (m := j) (n := memoryLimit) (k := n / memoryLimit)
        (by rw [Nat.mul_div_cancel' (Nat.dvd_of_mod_eq_zero hmod)]; exact hj)
      omega
    · simp [suffix, hmod, heq]

/-- After a run, the facts of the file are the kept ones and the stale ones. -/
theorem stems_indexFile (hlim : 0 < memoryLimit) {ix ix' : FactIndex σ α} {f : Str} {facts : List α}
    (hr : FactIndex.indexFile kv F ord memoryLimit ix (f, facts) = some ix') {key : Str} {h : Int} :
    Stems kv F ix'.factsCache f key h
      ↔ F.Indexed (kept memoryLimit facts) key h
        ∨ Stale kv F memoryLimit ix.factsCache f facts.length key h := by
  obtain ⟨s, hs, hwritten, hframe⟩ :=
    indexFile_content ix f facts
  obtain rfl : ix' = ⟨none, s⟩ := Option.some.inj (hr.symm.trans hs)
  rw [kept_indexed_iff hlim]
  have hother : ∀ i, ¬ Written memoryLimit facts.length i →
      ∀ i', Written memoryLimit facts.length i' → dbname f i ≠ dbname f i' :=
    fun i hi i' hi' hn => hi ((dbname_injective hn).2 ▸ hi')
  constructor
  · rintro ⟨i, hi⟩
    by_cases hw : Written memoryLimit facts.length i
    · obtain ⟨j, x, hj, rfl, hl, hrest⟩ := (hwritten i hw key h).mp hi
      exact Or.inl ⟨j, x, hj, hl, hrest⟩
    · exact Or.inr ⟨i, hw, (hframe _ (hother i hw) key h).mp hi⟩
  · rintro (⟨j, x, hj, hl, hrest⟩ | ⟨i, hw, hi⟩)
    · have hjn : j < facts.length := (List.getElem?_eq_some_iff.mp hj).1
      exact ⟨_, (hwritten _ (written_of_position hjn) key h).mpr ⟨j, x, hj, rfl, hl, hrest⟩⟩
    · exact ⟨i, (hframe _ (hother i hw) key h).mpr hi⟩

/-- A run leaves the databases of other files alone. -/
theorem indexFile_frame {ix ix' : FactIndex σ α} {f : Str} {facts : List α}
    (hr : FactIndex.indexFile kv F ord memoryLimit ix (f, facts) = some ix') {name : Str}
    (hname : ∀ i, name ≠ dbname f i) {key : Str} {h : Int} :
    Content kv F ix'.factsCache name key h ↔ Content kv F ix.factsCache name key h := by
  obtain ⟨s, hs, _, hframe⟩ := indexFile_content ix f facts
  obtain rfl : ix' = ⟨none, s⟩ := Option.some.inj (hr.symm.trans hs)
  exact hframe name (fun i _ => hname i) key h

end Freehal.Index
