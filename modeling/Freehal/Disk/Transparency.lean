import Freehal.Disk.QueryCache
import Freehal.Disk.Theorems

/-!
# What the query cache answers

The cache holds what was recorded for the calls that filled it. A call is answered from it as by
its SQL exactly where the recorded facts are the ones it would have found.
-/

namespace Freehal.Disk

open Universal (Config Group Word)

/-! ## Rows -/

section

variable {limit : Nat} {rows : List Argv} {facts : List Fact} {raw : List Argv}

theorem callbackGetFacts_usable {argv : Argv} (makeRawfacts : Bool) (hroom : facts.length < limit)
    (h : argv.isUsable = true) : callbackGetFacts limit makeRawfacts argv (facts, raw) =
      some (facts ++ [argv.fact],
        if makeRawfacts && decide (raw.length < limit) then raw ++ [argv] else raw) := by
  rw [callbackGetFacts, if_neg (by dsimp only; omega), if_neg (by simp [h])]

theorem callbackGetFacts_skip {argv : Argv} (makeRawfacts : Bool) (hroom : facts.length < limit)
    (h : argv.isUsable = false) :
    callbackGetFacts limit makeRawfacts argv (facts, raw) = some (facts, raw) := by
  rw [callbackGetFacts, if_neg (by dsimp only; omega), if_pos (by simp [h])]

theorem callbackGetFacts_full (makeRawfacts : Bool) (argv : Argv) (hroom : limit ≤ facts.length) :
    callbackGetFacts limit makeRawfacts argv (facts, raw) = none := by
  rw [callbackGetFacts, if_pos hroom]

/-- The rows that are taken while there is room. -/
def taken (room : Nat) (rows : List Argv) : List Argv := (rows.filter Argv.isUsable).take room

theorem sqlExecuteRows_eq (makeRawfacts : Bool) (hraw : raw.length ≤ facts.length) :
    sqlExecuteRows limit makeRawfacts rows (facts, raw) =
      (facts ++ (taken (limit - facts.length) rows).map Argv.fact,
        if makeRawfacts then raw ++ taken (limit - facts.length) rows else raw) := by
  induction rows generalizing facts raw with
  | nil => simp [sqlExecuteRows, taken]
  | cons argv rows ih =>
      rw [sqlExecuteRows]
      by_cases hroom : facts.length < limit
      · cases h : argv.isUsable with
        | false =>
            rw [callbackGetFacts_skip makeRawfacts hroom h]
            simp only [ih hraw, taken, List.filter_cons, h]
            rfl
        | true =>
            have hlimit : raw.length < limit := by omega
            have hnext : limit - facts.length = (limit - (facts ++ [argv.fact]).length) + 1 := by
              rw [List.length_append, List.length_singleton]
              omega
            have hcons : taken (limit - facts.length) (argv :: rows) =
                argv :: taken (limit - (facts ++ [argv.fact]).length) rows := by
              rw [taken, List.filter_cons, if_pos h, hnext, List.take_succ_cons]
              rfl
            rw [callbackGetFacts_usable makeRawfacts hroom h, hcons]
            dsimp only
            rw [ih (by cases makeRawfacts <;> simp [hlimit] <;> omega)]
            cases makeRawfacts <;> simp [hlimit]
      · rw [callbackGetFacts_full makeRawfacts argv (by omega)]
        have hzero : limit - facts.length = 0 := by omega
        simp [taken, hzero]

theorem replayRows_eq (h : ∀ argv ∈ rows, argv.isUsable = true) :
    replayRows limit rows facts = facts ++ (rows.take (limit - facts.length)).map Argv.fact := by
  induction rows generalizing facts with
  | nil => simp [replayRows]
  | cons argv rows ih =>
      have hrows : ∀ argv ∈ rows, argv.isUsable = true := fun a ha => h a (by simp [ha])
      rw [replayRows]
      by_cases hroom : facts.length < limit
      · have hnext : limit - facts.length = (limit - (facts ++ [argv.fact]).length) + 1 := by
          rw [List.length_append, List.length_singleton]
          omega
        rw [callbackGetFacts_usable false hroom (h argv (by simp)), Option.elim_some, ih hrows,
          hnext, List.take_succ_cons, List.map_cons, List.append_assoc]
        rfl
      · have hzero : limit - facts.length = 0 := by omega
        rw [callbackGetFacts_full false argv (by omega), Option.elim_none, ih hrows]
        simp [hzero]

end

/-! ## Words without a hash -/

theorem hashes_n2_nonneg (words : List Word) : 0 ≤ (hashes words).n2 := by
  induction words with
  | nil => exact Int.le_refl 0
  | cons w words ih =>
      simp only [hashes]
      omega

theorem names_nil_of_n2 {words : List Word} (h : (hashes words).n2 = 0) :
    ∀ w ∈ words, w.name = [] := by
  induction words with
  | nil => exact fun _ hw => (by cases hw)
  | cons w words ih =>
      simp only [hashes] at h
      have hrest := hashes_n2_nonneg words
      intro v hv
      rcases List.mem_cons.mp hv with rfl | hv
      · exact List.length_eq_zero_iff.mp (by omega)
      · exact ih (by omega) v hv

variable {glob : Str → Str → Bool} {double : Str → Str}

/-- Words without a hash are not searched for. -/
theorem resultRows_of_zero (cfg : Config) (db : Database) {words : List Group}
    (h : requestHashes words = ⟨0, 0, 0⟩) : resultRows glob double cfg db words = [] := by
  have hscript : genSqlGetFactsForWords cfg words = [] := by
    unfold requestHashes at h
    unfold genSqlGetFactsForWords
    split
    · case h_1 group groups =>
        have hnames := names_nil_of_n2 (congrArg Hashes.n2 h)
        rw [List.filter_eq_nil_iff.mpr, List.map_nil]
        intro w hw
        simp [isSkipped, hnames w hw, Universal.isBad]
    · rfl
  rw [resultRows, selectedFacts, hscript]
  simp [pure, Except.pure]

/-! ## The words of a call -/

/-- The words that the sums of a call are computed over. -/
def wordSet (words : List Group) : List Word :=
  match words with
  | some _ :: _ => unique words
  | _ => []

theorem genSql_eq (cfg : Config) (words : List Group) : genSqlGetFactsForWords cfg words =
    ((wordSet words).filter fun w => !isSkipped cfg w.name).map (selector ·.name) := by
  cases words with
  | nil => rfl
  | cons group groups => cases group <;> rfl

/-- The calls ask for the same words, in some order. -/
def sameWords (words words' : List Group) : Prop :=
  ∀ w, w ∈ wordSet words ↔ w ∈ wordSet words'

theorem mapM_error {α β : Type} {f : α → Except SqlError β} {as : List α} {a : α} (ha : a ∈ as)
    (h : ∀ b, f a ≠ .ok b) : ∃ e, as.mapM f = .error e := by
  cases hm : as.mapM f with
  | error e => exact ⟨e, rfl⟩
  | ok bs =>
      exfalso
      induction as generalizing bs with
      | nil => cases ha
      | cons a' as ih =>
          rw [List.mapM_cons] at hm
          obtain ⟨b, hb, hm⟩ := Lib.bind_eq_ok.mp hm
          obtain ⟨bs', hbs, -⟩ := Lib.bind_eq_ok.mp hm
          rcases List.mem_cons.mp ha with rfl | ha
          · exact h b hb
          · exact ih ha bs' hbs

/-- The facts that are selected depend on the set of the words only. -/
theorem selectedFacts_congr (cfg : Config) (db : Database) {words words' : List Group}
    (h : sameWords words words') :
    selectedFacts glob cfg db words = selectedFacts glob cfg db words' := by
  have hsel : ∀ sel, sel ∈ genSqlGetFactsForWords cfg words ↔
      sel ∈ genSqlGetFactsForWords cfg words' := by
    intro sel
    simp only [genSql_eq, List.mem_map, List.mem_filter, h _]
  by_cases hok : ∀ sel ∈ genSqlGetFactsForWords cfg words,
      ∃ indices, db.selectIndices glob sel = .ok indices
  · obtain ⟨indices, hindices, hmem⟩ := mapM_ok_mem hok
    obtain ⟨indices', hindices', hmem'⟩ :=
      mapM_ok_mem fun sel hs => hok sel ((hsel sel).mpr hs)
    have hids : ∀ id, id ∈ indices.flatten ↔ id ∈ indices'.flatten := by
      intro id
      rw [hmem, hmem']
      simp only [hsel]
    simp only [selectedFacts, hindices, hindices', hids]
  · push Not at hok
    obtain ⟨sel, hmem, hbad⟩ := hok
    obtain ⟨e, he⟩ := mapM_error hmem hbad
    obtain ⟨e', he'⟩ := mapM_error ((hsel sel).mp hmem) hbad
    simp only [selectedFacts, he, he']

/-! ## The calls that filled the cache -/

/-- The facts that a call has room for. -/
def Call.room (call : Call) : Nat := call.limit - call.facts.length

/-- The two sums that are compared agree. -/
def sameSums (words words' : List Group) : Bool :=
  (requestHashes words).n1 = (requestHashes words').n1 &&
    (requestHashes words).n2 = (requestHashes words').n2

/-- Nine entries are thrown away, and an entry is made for new sums only. -/
def fill (fillers : List Call) (call : Call) : List Call :=
  if fillers.length ≥ queryCacheSize then [call]
  else if fillers.any fun f => sameSums f.words call.words then fillers
  else fillers ++ [call]

/-- The calls that the entries of the cache were filled by. -/
def fillersAfter (calls : List Call) : List Call := calls.foldl fill []

variable (glob double) in
/-- The entry that a call fills. -/
def Call.entry (cfg : Config) (db : Database) (call : Call) : QueryCacheEntry :=
  ⟨requestHashes call.words, taken call.room (resultRows glob double cfg db call.words)⟩

variable (glob double) in
/-- The facts that the SQL of some words finds, in a call with room for all of them. -/
def answers (cfg : Config) (db : Database) (words : List Group) : List Fact :=
  ((resultRows glob double cfg db words).filter Argv.isUsable).map Argv.fact

theorem withoutCache_eq (cfg : Config) (db : Database) (call : Call) :
    withoutCache glob double cfg db call =
      call.facts ++ (answers glob double cfg db call.words).take call.room := by
  rw [withoutCache, sqlExecuteRows_eq false (Nat.zero_le _), answers, ← List.map_take]
  rfl

theorem isFor_entry (cfg : Config) (db : Database) (f call : Call) :
    (f.entry glob double cfg db).isFor (requestHashes call.words) =
      sameSums f.words call.words := by
  simp only [QueryCacheEntry.isFor, Call.entry, sameSums, Bool.and_assoc, Bool.and_self]
  rfl

theorem rightIndex_spec (h : Hashes) (cache : QueryCache) (i : Nat) (iRight : Option Nat) :
    (cache.any (·.isFor h) = false ∧ rightIndex h cache i iRight = iRight) ∨
      ∃ j entry, rightIndex h cache i iRight = some (i + j) ∧ cache[j]? = some entry ∧
        entry.isFor h = true := by
  induction cache generalizing i iRight with
  | nil => exact Or.inl ⟨rfl, rfl⟩
  | cons entry cache ih =>
      rw [rightIndex]
      rcases ih (i + 1) (if entry.isFor h then some i else iRight) with
        ⟨hnone, hright⟩ | ⟨j, e, hright, hget, hfor⟩
      · cases hentry : entry.isFor h with
        | true =>
            right
            refine ⟨0, entry, ?_, rfl, hentry⟩
            simpa [hentry] using hright
        | false =>
            left
            refine ⟨by simp [hentry, hnone], ?_⟩
            simpa [hentry] using hright
      · right
        refine ⟨j + 1, e, ?_, hget, hfor⟩
        rw [hright, Nat.add_assoc, Nat.add_comm 1 j]

theorem sameSums_comm (words words' : List Group) :
    sameSums words words' = sameSums words' words := by
  simp only [sameSums, eq_comm]

theorem sameSums_trans {a b c : List Group} (hab : sameSums a b = true)
    (hbc : sameSums b c = true) : sameSums a c = true := by
  simp only [sameSums, Bool.and_eq_true, decide_eq_true_eq] at hab hbc ⊢
  exact ⟨hab.1.trans hbc.1, hab.2.trans hbc.2⟩

/-- A cache in which no entry is for these sums, and that has room. -/
structure NoneFor (h : Hashes) (cache : QueryCache) : Prop where
  room : cache.length < queryCacheSize
  none : rightIndex h cache 0 none = none

theorem NoneFor.create {h : Hashes} {cache : QueryCache} (hnone : NoneFor h cache) :
    findQueryCacheEntry cache h true = (some cache.length, cache ++ [⟨h, []⟩]) := by
  have hroom : ¬ cache.length ≥ queryCacheSize := by
    have := hnone.room
    omega
  simp only [findQueryCacheEntry, hroom, if_false, hnone.none]
  rfl

/-- What `find_query_cache_entry` leaves where it does not create an entry. -/
theorem findQueryCacheEntry_false (cache : QueryCache) (h : Hashes) :
    findQueryCacheEntry cache h false =
      if cache.length ≥ queryCacheSize then (none, []) else (rightIndex h cache 0 none, cache) := by
  by_cases hroom : cache.length ≥ queryCacheSize
  · simp only [findQueryCacheEntry, hroom, if_true, Bool.false_and]
    rfl
  · simp only [findQueryCacheEntry, hroom, if_false, Bool.false_and]
    rfl

/-- A call that finds nothing in the cache is answered by its SQL, and fills a new entry. -/
theorem search_of_none (cfg : Config) (db : Database) {cache cache' : QueryCache} (call : Call)
    (hfind : findQueryCacheEntry cache (requestHashes call.words) false = (none, cache'))
    (hnone : NoneFor (requestHashes call.words) cache') :
    (diskSearchFactsForWordsInNet glob double cfg db cache call).facts =
        withoutCache glob double cfg db call ∧
      (diskSearchFactsForWordsInNet glob double cfg db cache call).cache =
        cache' ++ [call.entry glob double cfg db] := by
  have hentry : (sqlExecuteRows call.limit (decide (requestHashes call.words ≠ ⟨0, 0, 0⟩))
      (resultRows glob double cfg db call.words) (call.facts, [])).2 =
        taken call.room (resultRows glob double cfg db call.words) := by
    rw [sqlExecuteRows_eq _ (Nat.zero_le _)]
    by_cases hzero : requestHashes call.words = ⟨0, 0, 0⟩
    · simp [hzero, resultRows_of_zero cfg db hzero, taken]
    · simp [hzero, Call.room]
  refine ⟨?_, ?_⟩
  · simp only [diskSearchFactsForWordsInNet, hfind, Option.bind_none, hnone.create]
    rw [withoutCache, sqlExecuteRows_eq _ (Nat.zero_le _), sqlExecuteRows_eq _ (Nat.zero_le _)]
  · simp only [diskSearchFactsForWordsInNet, hfind, Option.bind_none, hnone.create, hentry]
    simp [Call.entry, List.modify_eq_take_drop]

/-- A call that finds an entry is answered from it, and the cache is kept. -/
theorem search_of_some (cfg : Config) (db : Database) {cache cache' : QueryCache} {call : Call}
    {i : Nat} {f : Call}
    (hfind : findQueryCacheEntry cache (requestHashes call.words) false = (some i, cache'))
    (hget : cache'[i]? = some (f.entry glob double cfg db)) :
    (diskSearchFactsForWordsInNet glob double cfg db cache call).facts = call.facts ++
        ((answers glob double cfg db f.words).take f.room).take call.room ∧
      (diskSearchFactsForWordsInNet glob double cfg db cache call).cache = cache' := by
  have husable : ∀ argv ∈ taken f.room (resultRows glob double cfg db f.words),
      argv.isUsable = true := by
    intro argv hargv
    exact (List.mem_filter.mp (List.mem_of_mem_take hargv)).2
  refine ⟨?_, ?_⟩
  · simp only [diskSearchFactsForWordsInNet, hfind, Option.bind_some, hget, Call.entry]
    rw [replayRows_eq husable, taken, answers, ← List.map_take, ← List.map_take]
    rfl
  · simp only [diskSearchFactsForWordsInNet, hfind, Option.bind_some, hget]

/-- What the cache holds, and no two entries for the same sums. -/
structure Filled (glob : Str → Str → Bool) (double : Str → Str) (cfg : Config) (db : Database)
    (cache : QueryCache) (fillers : List Call) : Prop where
  entries : cache = fillers.map (Call.entry glob double cfg db)
  distinct : fillers.Pairwise fun f g => sameSums f.words g.words = false

/-- The call finds no entry: it is answered by its SQL and fills one. -/
structure Missed (glob : Str → Str → Bool) (double : Str → Str) (cfg : Config) (db : Database)
    (cache : QueryCache) (fillers : List Call) (call : Call) : Prop where
  index : (findQueryCacheEntry cache (requestHashes call.words) false).1 = none
  none : fillers.length < queryCacheSize → ∀ f ∈ fillers, sameSums f.words call.words = false
  facts : (diskSearchFactsForWordsInNet glob double cfg db cache call).facts =
    withoutCache glob double cfg db call

/-- The call finds the entry that `f` has filled. -/
structure Hit (glob : Str → Str → Bool) (double : Str → Str) (cfg : Config) (db : Database)
    (cache : QueryCache) (fillers : List Call) (call : Call) (i : Nat) (f : Call) : Prop where
  index : (findQueryCacheEntry cache (requestHashes call.words) false).1 = some i
  filler : fillers[i]? = some f
  room : fillers.length < queryCacheSize
  sums : sameSums f.words call.words = true
  facts : (diskSearchFactsForWordsInNet glob double cfg db cache call).facts = call.facts ++
    ((answers glob double cfg db f.words).take f.room).take call.room

variable {cfg : Config} {db : Database} {cache : QueryCache} {fillers : List Call}

theorem Filled.any_isFor (h : Filled glob double cfg db cache fillers) (call : Call) :
    cache.any (·.isFor (requestHashes call.words)) =
      fillers.any fun f => sameSums f.words call.words := by
  rw [h.entries, List.any_map]
  refine congrArg fillers.any (funext fun f => ?_)
  exact isFor_entry cfg db f call

theorem Filled.length_eq (h : Filled glob double cfg db cache fillers) :
    cache.length = fillers.length := by
  rw [h.entries, List.length_map]

theorem Filled.fill_new (h : Filled glob double cfg db cache fillers) {call : Call}
    (hnone : ∀ f ∈ fillers, sameSums f.words call.words = false) :
    Filled glob double cfg db (cache ++ [call.entry glob double cfg db]) (fillers ++ [call]) where
  entries := by rw [h.entries, List.map_append, List.map_singleton]
  distinct := by
    rw [List.pairwise_append]
    refine ⟨h.distinct, List.pairwise_singleton _ _, ?_⟩
    intro f hf g hg
    rw [List.mem_singleton.mp hg]
    exact hnone f hf

/-- Two entries with the sums of one call are one. -/
theorem Filled.eq_of_sums (h : Filled glob double cfg db cache fillers) {f g call : Call}
    (hf : f ∈ fillers) (hg : g ∈ fillers) (hsums : sameSums f.words call.words = true)
    (hsums' : sameSums g.words call.words = true) : f = g := by
  have hsymm : Std.Symm fun f g : Call => sameSums f.words g.words = false :=
    ⟨fun f g hfg => sameSums_comm f.words g.words ▸ hfg⟩
  by_contra hne
  have hother := h.distinct.forall hf hg hne
  rw [sameSums_trans hsums (sameSums_comm g.words call.words ▸ hsums')] at hother
  cases hother

/-- One call. -/
theorem search_step (h : Filled glob double cfg db cache fillers) (call : Call) :
    Filled glob double cfg db (diskSearchFactsForWordsInNet glob double cfg db cache call).cache
        (fill fillers call) ∧
      (Missed glob double cfg db cache fillers call ∨
        ∃ i f, Hit glob double cfg db cache fillers call i f) := by
  have hlen := h.length_eq
  have hfind := findQueryCacheEntry_false cache (requestHashes call.words)
  by_cases hfull : cache.length ≥ queryCacheSize
  · -- the entries are thrown away, and the call fills the first one
    rw [if_pos hfull] at hfind
    have hnone : NoneFor (requestHashes call.words) [] := ⟨by decide, rfl⟩
    obtain ⟨hfacts, hcache⟩ := search_of_none cfg db call hfind hnone
    refine ⟨?_, Or.inl ⟨by rw [hfind], fun hroom => (by omega), hfacts⟩⟩
    rw [hcache, fill, if_pos (hlen ▸ hfull)]
    exact ⟨rfl, List.pairwise_singleton _ _⟩
  · rw [if_neg hfull] at hfind
    have hany := h.any_isFor call
    rcases rightIndex_spec (requestHashes call.words) cache 0 none with
      ⟨hno, hright⟩ | ⟨i, entry, hright, hget, hfor⟩
    · have hnone : ∀ f ∈ fillers, sameSums f.words call.words = false := by
        rw [hany, List.any_eq_false] at hno
        intro f hf
        simpa using hno f hf
      rw [hright] at hfind
      obtain ⟨hfacts, hcache⟩ := search_of_none cfg db call hfind ⟨by omega, hright⟩
      refine ⟨?_, Or.inl ⟨by rw [hfind], fun _ => hnone, hfacts⟩⟩
      rw [hcache, fill, if_neg (hlen ▸ hfull), if_neg (by rw [← hany, hno]; simp)]
      exact h.fill_new hnone
    · rw [Nat.zero_add] at hright
      rw [hright] at hfind
      have hget' := hget
      rw [h.entries, List.getElem?_map, Option.map_eq_some_iff] at hget'
      obtain ⟨f, hf, rfl⟩ := hget'
      rw [isFor_entry] at hfor
      obtain ⟨hfacts, hcache⟩ := search_of_some cfg db hfind hget
      refine ⟨?_, Or.inr ⟨i, f, by rw [hfind], hf, by omega, hfor, hfacts⟩⟩
      have hmem : fillers.any (fun f => sameSums f.words call.words) = true :=
        List.any_eq_true.mpr ⟨f, List.mem_of_getElem? hf, hfor⟩
      rw [hcache, fill, if_neg (hlen ▸ hfull), if_pos hmem]
      exact h

/-- Any number of calls. -/
theorem cacheAfter_filled (cfg : Config) (db : Database) (calls : List Call) :
    Filled glob double cfg db (cacheAfter glob double cfg db calls) (fillersAfter calls) := by
  have hrun : ∀ cache fillers, Filled glob double cfg db cache fillers →
      Filled glob double cfg db
        (calls.foldl (fun cache call =>
          (diskSearchFactsForWordsInNet glob double cfg db cache call).cache) cache)
        (calls.foldl fill fillers) := by
    induction calls with
    | nil => exact fun _ _ h => h
    | cons call calls ih => exact fun _ _ h => ih _ _ (search_step h call).1
  exact hrun [] [] ⟨rfl, List.Pairwise.nil⟩

/-! ## Transparency -/

/-- What is promised of a call after the calls `calls`: the facts of its SQL, and no entry that was
filled for other words. -/
structure Transparent (glob : Str → Str → Bool) (double : Str → Str) (cfg : Config)
    (db : Database) (calls : List Call) (call : Call) : Prop where
  facts : (diskSearchFactsForWordsInNet glob double cfg db
    (cacheAfter glob double cfg db calls) call).facts = withoutCache glob double cfg db call
  own : ∀ i f, (findQueryCacheEntry (cacheAfter glob double cfg db calls)
      (requestHashes call.words) false).1 = some i →
    (fillersAfter calls)[i]? = some f → sameWords f.words call.words

/-- The entry in use with the same two sums is one for the same words, and the call that filled it
had room for the facts that this call has room for. -/
def Covered (glob : Str → Str → Bool) (double : Str → Str) (cfg : Config) (db : Database)
    (calls : List Call) (call : Call) : Prop :=
  (fillersAfter calls).length < queryCacheSize →
    ∀ f ∈ fillersAfter calls, sameSums f.words call.words = true →
      sameWords f.words call.words ∧
        min (answers glob double cfg db call.words).length call.room ≤ f.room

theorem answers_congr (cfg : Config) (db : Database) {words words' : List Group}
    (h : sameWords words words') :
    answers glob double cfg db words = answers glob double cfg db words' := by
  rw [answers, answers, resultRows, resultRows, selectedFacts_congr cfg db h]

theorem take_take_eq_take_iff {α : Type} (as : List α) (n m : Nat) :
    (as.take n).take m = as.take m ↔ min as.length m ≤ n := by
  constructor
  · intro h
    have := congrArg List.length h
    simp only [List.length_take] at this
    omega
  · intro h
    rw [List.take_take]
    by_cases hm : m ≤ n
    · rw [Nat.min_eq_left hm]
    · rw [List.take_of_length_le (by omega), List.take_of_length_le (by omega)]

theorem transparent_iff (cfg : Config) (db : Database) (calls : List Call) (call : Call) :
    Transparent glob double cfg db calls call ↔ Covered glob double cfg db calls call := by
  have hfilled := @cacheAfter_filled glob double cfg db calls
  rcases (search_step hfilled call).2 with hmiss | ⟨i, f, hhit⟩
  · constructor
    · intro _ hroom f hf hsums
      rw [hmiss.none hroom f hf] at hsums
      cases hsums
    · intro _
      refine ⟨hmiss.facts, ?_⟩
      intro i f hi
      rw [hmiss.index] at hi
      cases hi
  · have hfacts : (answers glob double cfg db f.words = answers glob double cfg db call.words) →
        ((diskSearchFactsForWordsInNet glob double cfg db (cacheAfter glob double cfg db calls)
            call).facts = withoutCache glob double cfg db call ↔
          min (answers glob double cfg db call.words).length call.room ≤ f.room) := by
      intro hanswers
      rw [hhit.facts, withoutCache_eq, List.append_cancel_left_eq, hanswers, take_take_eq_take_iff]
    constructor
    · intro htrans _ g hg hsums
      have hsame := htrans.own i f hhit.index hhit.filler
      rw [hfilled.eq_of_sums hg (List.mem_of_getElem? hhit.filler) hsums hhit.sums]
      exact ⟨hsame, (hfacts (answers_congr cfg db hsame)).mp htrans.facts⟩
    · intro hcov
      obtain ⟨hsame, hmin⟩ := hcov hhit.room f (List.mem_of_getElem? hhit.filler) hhit.sums
      refine ⟨(hfacts (answers_congr cfg db hsame)).mpr hmin, ?_⟩
      intro j g hj hg
      rw [hhit.index, Option.some.injEq] at hj
      rw [← hj, hhit.filler, Option.some.injEq] at hg
      exact hg ▸ hsame

/-- Each call of a run is transparent exactly where each one is covered. -/
theorem calls_transparent (glob : Str → Str → Bool) (double : Str → Str) (cfg : Config)
    (db : Database) (calls : List Call) :
    (∀ before call after, calls = before ++ call :: after →
        Transparent glob double cfg db before call) ↔
      ∀ before call after, calls = before ++ call :: after →
        Covered glob double cfg db before call := by
  simp only [transparent_iff]

/-! Two words with the same first character and the same length. -/

def dogAndCat : List Operation :=
  [.addFact quiet (isEntry "hund" "tier" "1"), .addFact quiet (isEntry "katze" "tier" "1")]

/-- A call for one word, with room for 100 facts. -/
def callFor (word : String) : Call := ⟨[some [some ⟨word.toList⟩]], 100, []⟩

/-- The cache answers what was asked before. -/
theorem cache_confuses :
    ¬ ∀ before call after, [callFor "hund", callFor "haus"] = before ++ call :: after →
      Transparent (fun _ _ => false) id german (Lib.run (step german) State.fresh dogAndCat).db
        before call := by
  intro h
  exact absurd (h [callFor "hund"] (callFor "haus") [] rfl).facts (by decide +kernel)

end Freehal.Disk
