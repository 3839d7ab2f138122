import Freehal.Words.Interning

/-!
# Calls of `set_word`

After any calls, a name has a word object exactly when one of them was made with it, and it is the
one that the call returned.
-/

namespace Freehal.Words

open Lib (Block)

variable {words : List WordObject} {name : Name} {m : Memory} {a : Nat}

/-! ## Looking up -/

/-- The word object of a name. -/
def object (words : List WordObject) (name : Name) : Pointer :=
  (List.range words.length).find? fun a => words[a]?.any (·.name = name)

theorem object_eq_none : object words name = none ↔ ∀ word ∈ words, word.name ≠ name := by
  rw [object, List.find?_eq_none]
  constructor
  · intro h word hword
    obtain ⟨a, ha, hget⟩ := List.getElem_of_mem hword
    simpa [ha, hget] using h a (List.mem_range.mpr ha)
  · intro h a ha
    have ha : a < words.length := List.mem_range.mp ha
    simpa [ha] using h words[a] (List.getElem_mem ha)

theorem object_eq_some (h : object words name = some a) :
    ∃ word, words[a]? = some word ∧ word.name = name := by
  simpa [Option.any_eq_true] using List.find?_some h

theorem object_append (word : WordObject) (name : Name) : object (words ++ [word]) name =
    (object words name).or (if word.name = name then some words.length else none) := by
  have hold : (List.range words.length).find? (fun a => (words ++ [word])[a]?.any (·.name = name)) =
      object words name := by
    apply Lib.find?_congr
    intro a ha
    rw [List.getElem?_append_left (List.mem_range.mp ha)]
  rw [object, List.length_append, List.length_singleton, List.range_succ, List.find?_append, hold]
  congr 1
  by_cases hname : word.name = name
  · simp [hname]
  · simp [hname]

theorem findIn_eq {list : Block Pointer} {addresses gs : List Nat}
    (hread : ∀ g ∈ gs, g < addresses.length ∧ list.read (g : Nat) = some addresses[g]?)
    (haddresses : ∀ a ∈ addresses, a < words.length)
    (hwords : ∀ word ∈ words, word.length = word.name.length) :
    findIn words list name gs =
      some ((gs.filterMap fun g => addresses[g]?).find? fun a => words[a]?.any (·.name = name)) := by
  induction gs with
  | nil => rfl
  | cons g gs ih =>
      obtain ⟨hlt, hg⟩ := hread g (by simp)
      have ha := haddresses addresses[g] (List.getElem_mem hlt)
      have hlength := hwords words[addresses[g]] (List.getElem_mem ha)
      have hrest := ih fun g' hg' => hread g' (by simp [hg'])
      rw [findIn, hg, List.getElem?_eq_getElem hlt]
      simp only [Option.bind_eq_bind, Option.bind_some, List.getElem?_eq_getElem ha]
      rw [List.filterMap_cons, List.getElem?_eq_getElem hlt]
      by_cases hname : words[addresses[g]].name = name
      · have hboth : name.length = words[addresses[g]].length ∧ words[addresses[g]].name = name :=
          ⟨by rw [hlength, hname], hname⟩
        rw [if_pos hboth]
        simp [ha, hname]
      · rw [if_neg fun hboth => hname hboth.2, hrest]
        simp [ha, hname]

theorem find?_addressesAt (words : List WordObject) (name : Name) :
    (addressesAt words (row name) (column name)).find? (fun a => words[a]?.any (·.name = name)) =
      object words name := by
  rw [addressesAt, List.find?_filter, object]
  apply Lib.find?_congr
  intro a ha
  have ha : a < words.length := List.mem_range.mp ha
  rw [List.getElem?_eq_getElem ha]
  by_cases hname : words[a].name = name
  · simp [hname]
  · simp [hname]

theorem lt_of_mem_addressesAt {i k : Int} (h : a ∈ addressesAt words i k) : a < words.length :=
  List.mem_range.mp (List.mem_of_mem_filter h)

theorem Holds.getWordIn {net : Net} (h : Holds net words) (name : Name) :
    getWordIn net words name = some (object words name) := by
  unfold Words.getWordIn
  by_cases hempty : name.length = 0
  · have hnone : object words name = none := by
      rw [object_eq_none]
      rintro word hword rfl
      exact (h.words word hword).1 (List.length_eq_zero_iff.mp hempty)
    rw [if_pos hempty, hnone]
  · obtain ⟨f, hf, hbucket⟩ := h.bucket _ _ (inNet_row name) (inNet_column name)
    rw [if_neg hempty, hf]
    simp only [Option.bind_eq_bind, Option.bind_some]
    by_cases hnil : addressesAt words (row name) (column name) = []
    · rw [hbucket.empty hnil, ← find?_addressesAt, hnil]
      rfl
    · obtain ⟨list, hlist, -, hread⟩ := hbucket.full hnil
      rw [hlist, hbucket.size]
      simp only
      rw [findIn_eq (fun g hg => ⟨List.mem_range.mp hg, hread g (List.mem_range.mp hg)⟩)
        (fun a ha => lt_of_mem_addressesAt ha) (fun word hword => (h.words word hword).2),
        Lib.filterMap_range_getElem?, List.take_length, find?_addressesAt]

/-! ## One call -/

/-- The net of the engine that is in use. -/
def Memory.net (m : Memory) : Net :=
  match m.engine with
  | .ram => m.ramNet
  | .disk => m.diskNet

/-- The engine's net holds the words. -/
def Memory.Valid (m : Memory) : Prop := Holds m.net m.words

theorem Memory.Valid.getWord (h : m.Valid) (name : Name) :
    getWord m name = some (object m.words name) := by
  unfold Words.getWord
  cases hengine : m.engine with
  | ram =>
      have hnet : m.net = m.ramNet := by rw [Memory.net, hengine]
      exact Holds.getWordIn (hnet ▸ h) name
  | disk =>
      have hnet : m.net = m.diskNet := by rw [Memory.net, hengine]
      exact Holds.getWordIn (hnet ▸ h) name

/-- The words that calls with the names add. -/
structure Grows (words words' : List WordObject) (names : List Name) : Prop where
  new : ∀ name, object words' name = none ↔
    object words name = none ∧ (name = [] ∨ name ∉ names)
  old : ∀ name a, object words name = some a → object words' name = some a

theorem Grows.same (h : name = [] ∨ object words name ≠ none) : Grows words words [name] where
  new other := by
    constructor
    · intro hnone
      refine ⟨hnone, ?_⟩
      rcases h with rfl | h
      · by_cases heq : other = []
        · exact Or.inl heq
        · exact Or.inr (by simpa using heq)
      · exact Or.inr fun hmem => h (List.mem_singleton.mp hmem ▸ hnone)
    · exact fun hboth => hboth.1
  old _ _ hsome := hsome

theorem Grows.push (hname : name ≠ []) (hnone : object words name = none) :
    Grows words (words ++ [⟨name, name.length⟩]) [name] where
  new other := by
    rw [object_append]
    by_cases heq : name = other
    · subst heq
      simp [hnone, hname]
    · have hother : other ≠ name := fun h => heq h.symm
      simp [heq, hother]
  old other a hsome := by rw [object_append, hsome, Option.some_or]

theorem object_push (hnone : object words name = none) :
    object (words ++ [⟨name, name.length⟩]) name = some words.length := by
  rw [object_append, hnone]
  simp

theorem Memory.Valid.setWord (h : m.Valid) (name : Name) :
    ∃ m', setWord m name = some (m', object m'.words name) ∧ m'.Valid ∧
      Grows m.words m'.words [name] := by
  have hget := h.getWord name
  by_cases hname : name = []
  · subst hname
    have hobject : object m.words [] = none := by
      rw [object_eq_none]
      exact fun word hword => (Holds.words h word hword).1
    refine ⟨m, ?_, h, Grows.same (Or.inl rfl)⟩
    rw [hobject, Words.setWord]
    cases m.engine <;> rfl
  · have hlength : ¬ name.length = 0 := fun h => hname (List.length_eq_zero_iff.mp h)
    cases hobject : object m.words name with
    | some a =>
        refine ⟨m, ?_, h, Grows.same (Or.inr (by simp [hobject]))⟩
        rw [hobject] at hget ⊢
        rw [Words.setWord, ramSetWord, diskSetWord, if_neg hlength, if_neg hlength, hget]
        cases m.engine <;> rfl
    | none =>
        obtain ⟨net', hinsert, hholds⟩ := Holds.insertWord h hname
        rw [hobject] at hget
        cases hengine : m.engine with
        | ram =>
            have hnet : m.net = m.ramNet := by rw [Memory.net, hengine]
            rw [hnet] at hinsert
            refine ⟨{ m.allocate name with ramNet := net' }, ?_, ?_, Grows.push hname hobject⟩
            · simp only [Memory.allocate]
              rw [Words.setWord, hengine]
              simp only
              rw [ramSetWord, if_neg hlength, hget, object_push hobject]
              simp [hinsert, Memory.allocate, hengine]
            · simpa [Memory.Valid, Memory.net, Memory.allocate, hengine] using hholds
        | disk =>
            have hnet : m.net = m.diskNet := by rw [Memory.net, hengine]
            rw [hnet] at hinsert
            refine ⟨{ m.allocate name with diskNet := net' }, ?_, ?_, Grows.push hname hobject⟩
            · simp only [Memory.allocate]
              rw [Words.setWord, hengine]
              simp only
              rw [diskSetWord, if_neg hlength, hget, object_push hobject]
              simp [hinsert, Memory.allocate, hengine]
            · simpa [Memory.Valid, Memory.net, Memory.allocate, hengine] using hholds

/-! ## Any calls -/

theorem Memory.Valid.setWords (h : m.Valid) (names : List Name) :
    ∃ m', setWords m names = some (m', names.map (object m'.words)) ∧ m'.Valid ∧
      Grows m.words m'.words names := by
  induction names generalizing m with
  | nil => exact ⟨m, rfl, h, ⟨by simp, fun _ _ hsome => hsome⟩⟩
  | cons name names ih =>
      obtain ⟨m₁, hset, hvalid₁, hgrows₁⟩ := h.setWord name
      obtain ⟨m', hrest, hvalid, hgrows⟩ := ih hvalid₁
      have hsame : object m₁.words name = object m'.words name := by
        cases hobject : object m₁.words name with
        | some a => rw [hgrows.old name a hobject]
        | none =>
            have hempty : name = [] := by simpa using ((hgrows₁.new name).mp hobject).2
            rw [(hgrows.new name).mpr ⟨hobject, Or.inl hempty⟩]
      refine ⟨m', ?_, hvalid, ?_, ?_⟩
      · rw [Words.setWords, hset]
        simp [hrest, hsame]
      · intro other
        rw [hgrows.new, hgrows₁.new]
        simp only [List.mem_cons, List.not_mem_nil, or_false]
        tauto
      · exact fun other a hsome => hgrows.old other a (hgrows₁.old other a hsome)

theorem setWords_append (pre rest : List Name) : setWords m (pre ++ rest) =
    (setWords m pre).bind fun r => (setWords r.1 rest).map fun r' => (r'.1, r.2 ++ r'.2) := by
  induction pre generalizing m with
  | nil =>
      rw [List.nil_append, setWords, Option.bind_some]
      simp
  | cons name pre ih =>
      rw [List.cons_append, setWords, setWords]
      cases hset : setWord m name with
      | none => rfl
      | some r =>
          obtain ⟨m₁, word⟩ := r
          simp only [Option.bind_eq_bind, Option.bind_some, ih]
          cases hpre : setWords m₁ pre with
          | none => rfl
          | some r =>
              obtain ⟨m₂, objects⟩ := r
              cases hrest : setWords m₂ rest <;> simp [hrest]

theorem begin_valid (engine : Engine) :
    ∃ m, begin engine = some m ∧ m.Valid ∧ m.words = [] := by
  obtain ⟨ramNet, hram, hramEmpty⟩ := beginNet_eq lt_width_of_mem_ramIndices fun _ => mem_ramIndices
  obtain ⟨diskNet, hdisk, hdiskEmpty⟩ :=
    beginNet_eq lt_width_of_mem_diskIndices fun _ => mem_diskIndices
  have hholds : ∀ {net}, (∀ i k, InNet i → InNet k → Net.flist net i k = some ⟨none, 0, 0⟩) →
      Holds net [] :=
    fun hempty => ⟨fun i k hi hk => ⟨_, hempty i k hi hk, bucket_nil⟩, by simp⟩
  refine ⟨⟨engine, ramNet, diskNet, []⟩, by simp [begin, hram, hdisk], ?_, rfl⟩
  cases engine with
  | ram => exact hholds hramEmpty
  | disk => exact hholds hdiskEmpty

/-- Any calls write and read the buckets inside their lists only. At each moment, `get_word` finds
the names of the calls so far, each with the object that the calls returned, and names that differ
have different objects. -/
theorem setWords_intern (engine : Engine) (names : List Name) : ∃ object : Name → Pointer,
    (∀ name, object name = none ↔ name = [] ∨ name ∉ names) ∧
      (∀ name name' a, object name = some a → object name' = some a → name = name') ∧
        ∀ pre, pre <+: names →
          ∃ m, (begin engine).bind (setWords · pre) = some (m, pre.map object) ∧
            ∀ name, getWord m name = some (if name ∈ pre then object name else none) := by
  obtain ⟨m₀, hbegin, hvalid₀, hwords⟩ := begin_valid engine
  obtain ⟨m, hset, hvalid, hgrows⟩ := hvalid₀.setWords names
  have hnone : ∀ name, Words.object m₀.words name = none := by
    intro name
    rw [hwords]
    rfl
  refine ⟨Words.object m.words, ?_, ?_, ?_⟩
  · intro name
    rw [hgrows.new]
    simp [hnone name]
  · intro name name' a h h'
    obtain ⟨word, hword, rfl⟩ := object_eq_some h
    obtain ⟨word', hword', rfl⟩ := object_eq_some h'
    rw [hword, Option.some.injEq] at hword'
    rw [hword']
  · rintro pre ⟨rest, rfl⟩
    obtain ⟨m₁, hset₁, hvalid₁, hgrows₁⟩ := hvalid₀.setWords pre
    obtain ⟨m₂, hset₂, -, hgrows₂⟩ := hvalid₁.setWords rest
    have heq : m₂ = m := by
      rw [setWords_append, hset₁, Option.bind_some, hset₂] at hset
      exact congrArg Prod.fst (Option.some.inj hset)
    subst heq
    have hsame : ∀ name ∈ pre, Words.object m₁.words name = Words.object m₂.words name := by
      intro name hmem
      cases hobject : Words.object m₁.words name with
      | some a => rw [hgrows₂.old name a hobject]
      | none =>
          have hempty := ((hgrows₁.new name).mp hobject).2.resolve_right (not_not_intro hmem)
          rw [(hgrows₂.new name).mpr ⟨hobject, Or.inl hempty⟩]
    refine ⟨m₁, ?_, ?_⟩
    · rw [hbegin, Option.bind_some, hset₁, List.map_congr_left hsame]
    · intro name
      rw [hvalid₁.getWord]
      by_cases hmem : name ∈ pre
      · rw [if_pos hmem, hsame name hmem]
      · rw [if_neg hmem, (hgrows₁.new name).mpr ⟨hnone name, Or.inr hmem⟩]

end Freehal.Words
