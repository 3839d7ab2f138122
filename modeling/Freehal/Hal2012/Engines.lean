import Freehal.Disk.DetectWords
import Freehal.Disk.Theorems
import Freehal.Lib.Pieces
import Freehal.Ram.Net

/-!
# The two engines

`hal2012-universal.c` works on the engine in memory or on the one on disk. For facts whose texts
both of them divide into the same words they find the same, but the engine on disk finds the words
of a verb too.
-/

namespace Freehal.Hal2012

open Universal (Config Group Word isATrivialWord)
open Lib (pieces run Meets)
open Disk (Entry FactRow Traced Operation Readably Indexably Complete requested selectedFacts finds
  isSkipped isIndexed isName idNames strtok stored)
open Ram (Columns Insertion Engine Log runInsertions ramSearchFactsForWordsInNet)

/-! ## Texts and words that both engines read alike -/

/-- No separator but the blank, no word "0" and at most a hundred words. -/
structure PlainText (text : Str) : Prop where
  separators : ∀ c ∈ text, c ∈ " ;.)(,_".toList → c = ' '
  start : text.head? ≠ some ' ' ∧ text.head? ≠ some '0'
  zero : ['0'] ∉ pieces ' ' text
  length : (pieces ' ' text).length ≤ 100

structure PlainEntry (e : Entry) : Prop where
  verbs : PlainText e.verbs
  subjects : PlainText e.subjects
  objects : PlainText e.objects
  adverbs : PlainText e.adverbs

/-- A word that is one literal and no pattern, is indexed, is no name of a column, and is left out
by both engines or by none. -/
structure PlainWord (cfg : Config) (word : Str) : Prop where
  chars : ∀ c ∈ word, c ∉ " ;.)(,_*\"".toList
  indexed : isIndexed word = true
  column : isName (["word", "fact", "table"] ++ idNames) word = false
  skipped : isSkipped cfg word = isATrivialWord cfg word

section

variable {cfg : Config} {glob : Str → Str → Bool} {text word : Str} {e : Entry}

theorem PlainText.strtok (h : PlainText text) : strtok text = pieces ' ' text := by
  refine Lib.pieces_eq_splitOnP fun c hc => ?_
  by_cases hblank : c = ' '
  · subst hblank; decide
  · have hnot : c ∉ " ;.)(,_".toList := fun hmem => hblank (h.separators c hc hmem)
    simp only [hnot, hblank]

theorem PlainText.divideWords (h : PlainText text) :
    Disk.divideWords text = (pieces ' ' text).map Word.mk := by
  rw [Disk.divideWords, if_neg (by have := h.start; tauto)]
  rfl

theorem stored_of_head (h : text.head? ≠ some '_') : stored text = text := by
  cases text with
  | nil => rfl
  | cons c text =>
      cases text with
      | nil => simp [stored]
      | cons d text =>
          have hc : c ≠ '_' := fun hc => h (by rw [hc]; rfl)
          simp [stored, hc]

theorem stored_of_not_mem (h : '_' ∉ text) : stored text = text :=
  stored_of_head fun hhead => h (List.mem_of_mem_head? hhead)

theorem PlainText.stored (h : PlainText text) : stored text = text :=
  stored_of_not_mem fun hmem => absurd (h.separators _ hmem (by decide)) (by decide)

theorem PlainWord.not_mem (h : PlainWord cfg word) {c : Char} (hc : c ∈ " ;.)(,_*\"".toList) :
    c ∉ word := fun hmem => h.chars c hmem hc

theorem PlainWord.pattern (h : PlainWord cfg word) : Disk.pattern word = word := by
  cases word with
  | nil => rfl
  | cons c word =>
      have hc : c ≠ '*' := fun hc => h.chars c (by simp) (by rw [hc]; decide)
      simp [Disk.pattern, hc]

theorem PlainWord.stored (h : PlainWord cfg word) : stored word = word :=
  stored_of_not_mem (h.not_mem (by decide))

theorem PlainWord.finds (h : PlainWord cfg word) (own : Str) :
    finds glob word own = decide (word = Disk.stored own) := by
  rw [Disk.finds, h.pattern, if_neg (h.not_mem (by decide)), h.stored]

theorem PlainWord.searchable (h : PlainWord cfg word) : Disk.Searchable glob word := by
  have hcolumn := h.column
  have hpattern : Disk.stored (Disk.pattern word) = word := by rw [h.pattern, h.stored]
  simp only [isName, List.any_append, List.any_cons, List.any_nil, Bool.or_false,
    Bool.or_eq_false_iff] at hcolumn
  obtain ⟨⟨hword, hfact, htable⟩, hid⟩ := hcolumn
  refine ⟨?_, ?_, ?_, Disk.not_finds_of_indexed ?_ ?_⟩
  · rw [h.pattern]
    exact ⟨h.not_mem (by decide), fun hhead => h.not_mem (c := ' ') (by decide)
      (List.mem_of_mem_head? hhead)⟩
  · rw [Disk.NoColumn, hpattern]
    exact ⟨by simp only [isName, List.any_cons, List.any_nil, Bool.or_false, hword], hid⟩
  · rw [hpattern]
    simp only [isName, List.any_cons, List.any_nil, Bool.or_false, hfact, htable]
  · rw [h.pattern]
    exact h.not_mem (by decide)
  · rw [hpattern]
    exact h.indexed

/-! ## The words of a fact -/

def columnTexts (e : Entry) : List Str := [e.verbs, e.subjects, e.objects, e.adverbs]

theorem PlainEntry.plain (h : PlainEntry e) : ∀ text ∈ columnTexts e, PlainText text := by
  intro text hmem
  simp only [columnTexts, List.mem_cons, List.not_mem_nil, or_false] at hmem
  rcases hmem with rfl | rfl | rfl | rfl
  · exact h.verbs
  · exact h.subjects
  · exact h.objects
  · exact h.adverbs

/-- What the words of an entry are detected in. -/
def fieldTexts (e : Entry) : Disk.FieldTexts :=
  ⟨some e.verbs, some e.subjects, some e.objects, some e.adverbs, some []⟩

theorem PlainText.shownTokens (h : PlainText text) : Disk.shownTokens cfg text =
    (pieces ' ' text).filter (!isATrivialWord cfg ·) := by
  have hall : (pieces ' ' text).takeWhile (· ≠ ['0']) = pieces ' ' text :=
    List.takeWhile_eq_self_iff.mpr fun token htoken =>
      decide_eq_true fun hzero => h.zero (hzero ▸ htoken)
  rw [Disk.shownTokens, h.strtok, hall]

theorem PlainText.length_shownTokens (h : PlainText text) :
    (Disk.shownTokens cfg text).length ≤ 100 := by
  rw [h.shownTokens]
  exact (List.length_filter_le _ _).trans h.length

/-- The array has room for the words of four texts. -/
theorem PlainEntry.detected (h : PlainEntry e) :
    Disk.detectWords cfg e.verbs e.subjects e.objects e.adverbs =
      (fieldTexts e).whole ++ ((columnTexts e).map (Disk.shownTokens cfg)).flatten := by
  have hnil : Disk.shownTokens cfg [] = [] := rfl
  have hshown : (Disk.WordArray.shown cfg (fieldTexts e)).flatten =
      ((columnTexts e).map (Disk.shownTokens cfg)).flatten := by
    simp only [Disk.WordArray.shown, Disk.FieldTexts.texts, fieldTexts, columnTexts,
      Disk.FieldTexts.verbs, Disk.FieldTexts.subj, Disk.FieldTexts.obj, Disk.FieldTexts.advs,
      Disk.FieldTexts.extra, Option.getD_some, List.map_cons, List.map_nil, hnil,
      List.flatten_cons, List.flatten_nil, List.append_nil]
  have hlength : (fieldTexts e).whole.length +
      (Disk.WordArray.shown cfg (fieldTexts e)).flatten.length < 500 := by
    have hwhole := Disk.length_whole_le (fieldTexts e)
    have hverbs := @PlainText.length_shownTokens cfg _ h.verbs
    have hsubjects := @PlainText.length_shownTokens cfg _ h.subjects
    have hobjects := @PlainText.length_shownTokens cfg _ h.objects
    have hadverbs := @PlainText.length_shownTokens cfg _ h.adverbs
    rw [hshown]
    simp only [columnTexts, List.map_cons, List.map_nil, List.flatten_cons, List.flatten_nil,
      List.append_nil, List.length_append]
    omega
  rw [← hshown, ← Disk.WordArray.detected_of_lt hlength]
  exact (Disk.WordArray.detected_of_extra_nil cfg (r := fieldTexts e) rfl).symm

theorem mem_whole {own : Str} (h : own ∈ (fieldTexts e).whole) :
    own = ['0'] ∨ own ∈ columnTexts e := by
  have hlist : ∀ {c : Prop} [Decidable c] {texts : List Str},
      own ∈ (if c then texts else []) → own ∈ texts := by
    intro c _ texts hmem
    split at hmem
    · exact hmem
    · cases hmem
  simp only [columnTexts, List.mem_cons, List.not_mem_nil, or_false]
  rcases List.mem_append.mp h with h | h
  · rcases List.mem_append.mp h with h | h
    · rcases List.mem_append.mp h with h | h
      · exact Or.inl (List.mem_singleton.mp h)
      · have hsubjects := hlist h
        simp only [List.mem_cons, List.not_mem_nil, or_false] at hsubjects
        exact Or.inr (hsubjects.imp_right Or.inl)
    · exact Or.inr (Or.inr (Or.inr (Or.inl (List.mem_singleton.mp (hlist h)))))
  · exact Or.inr (Or.inr (Or.inr (Or.inr (List.mem_singleton.mp (hlist h)))))

/-- The engine on disk finds a plain fact by a plain word exactly where that is a word of one of
the four texts. -/
theorem PlainWord.finds_iff (hw : PlainWord cfg word) (he : PlainEntry e)
    (htrivial : isATrivialWord cfg word = false) :
    (∃ own ∈ e.ownWords cfg, Disk.finds glob word own = true) ↔
      ∃ text ∈ columnTexts e, word ∈ pieces ' ' text := by
  have hne : word ≠ [] := fun hnil => by have := hw.indexed; rw [hnil] at this; cases this
  have hblank : ' ' ∉ word := hw.not_mem (by decide)
  simp only [hw.finds, decide_eq_true_eq, Disk.Entry.ownWords, he.detected, List.mem_append]
  constructor
  · rintro ⟨own, (hwhole | hshown) | hmarker, rfl⟩
    · rcases mem_whole hwhole with rfl | htext
      · have := hw.indexed
        cases this
      · rw [(he.plain own htext).stored] at hne hblank ⊢
        refine ⟨own, htext, ?_⟩
        rw [Lib.pieces_of_not_mem hblank hne]
        exact List.mem_singleton_self _
    · simp only [List.mem_flatten, List.mem_map] at hshown
      obtain ⟨_, ⟨text, htext, rfl⟩, hown⟩ := hshown
      rw [(he.plain text htext).shownTokens, List.mem_filter] at hown
      have hstored : Disk.stored own = own := stored_of_not_mem fun hmem =>
        absurd ((he.plain text htext).separators _ (Lib.mem_of_mem_pieces hown.1 hmem) (by decide))
          (by decide)
      rw [hstored]
      exact ⟨text, htext, hown.1⟩
    · split at hmarker
      · rw [List.mem_singleton] at hmarker
        subst hmarker
        exact absurd (hw.not_mem (c := '_') (by decide)) (by decide)
      · cases hmarker
  · rintro ⟨text, htext, hword⟩
    refine ⟨word, Or.inl (Or.inr ?_), hw.stored.symm⟩
    refine List.mem_flatten.mpr ⟨_, List.mem_map_of_mem htext, ?_⟩
    rw [(he.plain text htext).shownTokens, List.mem_filter]
    exact ⟨hword, by simp [htrivial]⟩

end

/-! ## The same fact in both engines -/

/-- Both engines are given the same texts. -/
structure SameTexts (c : Columns) (e : Entry) : Prop where
  subjects : c.subjects = e.subjects
  objects : c.objects = e.objects
  verbs : c.verbs = e.verbs
  adverbs : c.adverbs = e.adverbs

/-- The words that the engine on disk is asked for, when the one in memory is asked for the arrays
of `words`. -/
def asked (group : Nat → List Word) (words : List Nat) : List Group :=
  words.map fun p => some ((group p).map some)

theorem requested_asked (group : Nat → List Word) (words : List Nat) :
    requested (asked group words) = words.flatMap group := by
  have hreduce : ∀ ws : List Word, (ws.map some).reduceOption = ws := by
    intro ws
    rw [List.reduceOption, List.filterMap_map]
    exact List.filterMap_some
  simp only [requested, asked, List.flatMap_map, Option.getD_some, hreduce]

section

variable {cfg : Config} {e : Entry} {c : Columns} {w : Word} {text : Str}

theorem mem_divideWords (h : PlainText text) :
    w ∈ Disk.divideWords text ↔ w.name ∈ pieces ' ' text := by
  rw [h.divideWords, List.mem_map]
  constructor
  · rintro ⟨name, hname, rfl⟩
    exact hname
  · exact fun hname => ⟨w.name, hname, rfl⟩

theorem take_divideWords (h : PlainText text) :
    (Disk.divideWords text).take 100 = Disk.divideWords text :=
  List.take_of_length_le (by rw [h.divideWords, List.length_map]; exact h.length)

theorem lists_eq (htexts : SameTexts c e) : c.fact.lists = ⟨Disk.divideWords e.subjects,
    Disk.divideWords e.objects, Disk.divideWords e.adverbs⟩ := by
  rw [← htexts.subjects, ← htexts.objects, ← htexts.adverbs]
  rfl

theorem lists_has_iff (htexts : SameTexts c e) (he : PlainEntry e) :
    c.fact.lists.Has w ↔ w.name ∈ pieces ' ' e.subjects ∨ w.name ∈ pieces ' ' e.objects ∨
      w.name ∈ pieces ' ' e.adverbs := by
  rw [lists_eq htexts, Ram.Lists.Has, mem_divideWords he.subjects, mem_divideWords he.objects,
    mem_divideWords he.adverbs]

/-- The net has a plain fact under all words of three of its texts. -/
theorem front_eq (htexts : SameTexts c e) (he : PlainEntry e) :
    c.fact.lists.front = c.fact.lists := by
  rw [lists_eq htexts, Ram.Lists.front, take_divideWords he.subjects,
    take_divideWords he.objects, take_divideWords he.adverbs]

end

/-! ## Rows that refer to their texts -/

section

variable {cfg : Config} {t : Traced} {op : Operation}

/-- Every stored fact is indexed by its own words and refers to its own texts. -/
structure Traceable (cfg : Config) (t : Traced) : Prop where
  tracked : Disk.Tracked cfg t
  refers : ∀ o ∈ t.origin, Disk.RowRefers t.state.db.word o.1 o.2

theorem Traceable.step (h : Traceable cfg t) (hindexably : Indexably cfg t.state op)
    (hreadably : Readably cfg t.state op) : Traceable cfg (t.step cfg op) := by
  refine ⟨h.tracked.step hindexably, fun o ho => ?_⟩
  have hword : t.state.db.word.rows <+: (t.step cfg op).state.db.word.rows := Disk.step_word op
  rcases List.mem_append.mp ho with hold | hnew
  · exact (h.refers o (List.mem_filter.mp hold).1).mono hword
  · cases hop : op.added with
    | none =>
        rw [hop] at hnew
        cases hnew
    | some call =>
        obtain ⟨env, rel, e⟩ := call
        rw [hop] at hnew
        obtain ⟨row, hrow, rfl⟩ := List.mem_map.mp hnew
        obtain ⟨hmem, hnot⟩ := List.mem_filter.mp hrow
        obtain ⟨hfirst, hsecond, hset, hcolumns, hheld⟩ := hreadably env rel e hop
        obtain ⟨-, hfacts, -⟩ := Disk.addEntry_readBack rel h.tracked.counted hfirst hsecond hset
          hcolumns hheld
        have hstate : (t.step cfg op).state = (Disk.addEntry cfg env rel e t.state).2 :=
          Disk.step_added hop
        rw [hstate]
        exact (hfacts row (Disk.step_added hop ▸ hmem)).resolve_left (by simpa using hnot)

theorem traceable_run {ops : List Operation} (h : Meets (Traced.step cfg)
    (fun t op => Indexably cfg t.state op ∧ Readably cfg t.state op) Traced.fresh ops) :
    Traceable cfg (run (Traced.step cfg) Traced.fresh ops) :=
  h.induction ⟨Disk.tracked_fresh cfg, fun _ ho => (by cases ho)⟩
    fun _ _ htraceable hop => htraceable.step hop.1 hop.2

theorem wordText_eq {db : Disk.Database} {id : Option Int} {text : Str}
    (h : Disk.Refers db.word id text) : db.wordText id = some (stored text) := by
  obtain ⟨n, rfl, hmem⟩ := h
  rw [Disk.Database.wordText, Option.bind_some]
  cases hfind : db.word.rows.find? (fun row => decide (row.id = n)) with
  | none =>
      have hnone := List.find?_eq_none.mp hfind _ hmem
      simp at hnone
  | some row =>
      have hrow := List.mem_of_find?_eq_some hfind
      have hid : row.id = n := by simpa using List.find?_some hfind
      rw [Disk.eq_of_id hrow hmem hid]
      rfl

/-- The three lists that both engines search, of the record for a row. -/
theorem record_lists {db : Disk.Database} {row : FactRow} {e : Entry} (double : Str → Str)
    (h : Disk.RowRefers db.word row e) (he : PlainEntry e) :
    (db.argv double row).fact.subjects = Disk.divideWords e.subjects ∧
      (db.argv double row).fact.objects = Disk.divideWords e.objects ∧
        (db.argv double row).fact.adverbs = Disk.divideWords e.adverbs := by
  refine ⟨?_, ?_, ?_⟩
  · exact congrArg (fun text => Disk.divideWords (text.getD []))
      ((wordText_eq h.subjects).trans (congrArg some he.subjects.stored))
  · exact congrArg (fun text => Disk.divideWords (text.getD []))
      ((wordText_eq h.objects).trans (congrArg some he.objects.stored))
  · exact congrArg (fun text => Disk.divideWords (text.getD []))
      ((wordText_eq h.adverbs).trans (congrArg some he.adverbs.stored))

end

/-! ## The engines agree -/

section

variable {cfg : Config} {glob : Str → Str → Bool} {group : Nat → List Word} {words : List Nat}
  {limit : Int} {is : List Insertion} {s : Engine} {log : Log} {ops : List Operation}

/-- A search that both engines can answer. -/
structure Answerable (cfg : Config) (group : Nat → List Word) (words : List Nat) : Prop where
  pointer : words ≠ []
  length : (words.flatMap group).length < 1024
  plain : ∀ p ∈ words, ∀ w ∈ group p, PlainWord cfg w.name

theorem Answerable.complete (h : Answerable cfg group words) : Complete (asked group words) := by
  refine ⟨?_, by rw [requested_asked]; exact h.length⟩
  cases words with
  | nil => exact absurd rfl h.pointer
  | cons p ps => exact ⟨_, _, rfl⟩

theorem Answerable.word (h : Answerable cfg group words) {w : Word}
    (hw : w ∈ requested (asked group words)) : PlainWord cfg w.name := by
  rw [requested_asked, List.mem_flatMap] at hw
  obtain ⟨p, hp, hmem⟩ := hw
  exact h.plain p hp w hmem

theorem searched_iff {w : Word} :
    Ram.Searched cfg group words w ↔
      w ∈ requested (asked group words) ∧ isATrivialWord cfg w.name = false := by
  rw [requested_asked, List.mem_flatMap]
  constructor
  · rintro ⟨p, hp, hw, htrivial⟩
    exact ⟨⟨p, hp, hw⟩, htrivial⟩
  · rintro ⟨⟨p, hp, hw⟩, htrivial⟩
    exact ⟨p, hp, hw, htrivial⟩

/-- The engine on disk finds a plain fact exactly where one of its four texts has a searched
word. -/
theorem disk_finds_iff (h : Answerable cfg group words) {t : Traced} (htraceable : Traceable cfg t)
    {row : FactRow} {e : Entry} (hrow : (row, e) ∈ t.origin) (he : PlainEntry e) :
    row ∈ selectedFacts glob cfg t.state.db (asked group words) ↔
      ∃ w, Ram.Searched cfg group words w ∧ ∃ text ∈ columnTexts e, w.name ∈ pieces ' ' text := by
  rw [Disk.selectedFacts_iff h.complete (fun w hw _ => (h.word hw).searchable)
    (htraceable.tracked.stored _ hrow) (htraceable.tracked.indexed _ hrow)]
  constructor
  · rintro ⟨w, hw, hskipped, hfinds⟩
    rw [(h.word hw).skipped] at hskipped
    exact ⟨w, searched_iff.mpr ⟨hw, hskipped⟩, ((h.word hw).finds_iff he hskipped).mp hfinds⟩
  · rintro ⟨w, hsearched, htext⟩
    obtain ⟨hw, htrivial⟩ := searched_iff.mp hsearched
    exact ⟨w, hw, (h.word hw).skipped.trans htrivial,
      ((h.word hw).finds_iff he htrivial).mpr htext⟩

/-- The engine in memory finds a plain fact exactly where one of three texts has a searched word,
below the limit. -/
theorem ram_finds_iff (h : Answerable cfg group words) (hram : runInsertions is = some (s, log))
    (hroom : ((ramSearchFactsForWordsInNet cfg s group limit words).length : Int) < limit)
    {c : Columns} {onlyLogic : Bool} {a : Nat} (hfact : (Insertion.fact c onlyLogic, some a) ∈ log)
    {e : Entry} (htexts : SameTexts c e) (he : PlainEntry e) :
    a ∈ ramSearchFactsForWordsInNet cfg s group limit words ↔
      ∃ w, Ram.Searched cfg group words w ∧ (w.name ∈ pieces ' ' e.subjects ∨
        w.name ∈ pieces ' ' e.objects ∨ w.name ∈ pieces ' ' e.adverbs) := by
  have hindexed : Ram.Indexed s log := Ram.indexed_ramBegin.runFrom hram
  have hnames : ∀ p ∈ words, ∀ w ∈ group p, w.name ≠ [] := by
    intro p hp w hw hnil
    have := (h.plain p hp w hw).indexed
    rw [hnil] at this
    cases this
  obtain ⟨hfound, hall⟩ := Ram.search_finds hram hnames
  obtain ⟨f, hf, hlists⟩ := Option.map_eq_some_iff.mp (hindexed.stored _ a hfact)
  constructor
  · intro ha
    obtain ⟨f', hf', w, hsearched, hhas⟩ := hfound.has a ha
    obtain rfl : f = f' := Option.some.inj (hf.symm.trans hf')
    exact ⟨w, hsearched, (lists_has_iff htexts he).mp (hlists ▸ hhas)⟩
  · rintro ⟨w, hsearched, htext⟩
    refine hall hroom c onlyLogic a f hfact hf ⟨w, hsearched, ?_⟩
    have hfront : f.lists.front = f.lists := hlists.symm ▸ front_eq htexts he
    rw [hfront, hlists]
    exact (lists_has_iff htexts he).mpr htext

/-- The engine on disk and the engine in memory find the same plain facts, except that the one on
disk also finds a fact by a word of its verb. What the row of the fact is read as has the same
words to search for as the fact in memory. -/
theorem engines_agree (hdisk : Meets (Traced.step cfg)
      (fun t op => Indexably cfg t.state op ∧ Readably cfg t.state op) Traced.fresh ops)
    (hram : runInsertions is = some (s, log)) (hasked : Answerable cfg group words)
    (hroom : ((ramSearchFactsForWordsInNet cfg s group limit words).length : Int) < limit)
    (double : Str → Str) {row : FactRow} {e : Entry} {c : Columns} {onlyLogic : Bool} {a : Nat}
    (hrow : (row, e) ∈ (run (Traced.step cfg) Traced.fresh ops).origin)
    (hfact : (Insertion.fact c onlyLogic, some a) ∈ log) (htexts : SameTexts c e)
    (he : PlainEntry e) :
    let db := (run (Traced.step cfg) Traced.fresh ops).state.db
    (row ∈ selectedFacts glob cfg db (asked group words) ↔
        a ∈ ramSearchFactsForWordsInNet cfg s group limit words ∨
          ∃ w, Ram.Searched cfg group words w ∧ w ∈ Disk.divideWords e.verbs) ∧
      ∃ f, s.facts[a]? = some f ∧ f.lists =
        ⟨(db.argv double row).fact.subjects, (db.argv double row).fact.objects,
          (db.argv double row).fact.adverbs⟩ := by
  intro db
  have htraceable := traceable_run hdisk
  refine ⟨?_, ?_⟩
  · rw [disk_finds_iff hasked htraceable hrow he, ram_finds_iff hasked hram hroom hfact htexts he]
    simp only [columnTexts, List.mem_cons, List.not_mem_nil, or_false, exists_eq_or_imp,
      exists_eq_left, mem_divideWords he.verbs]
    constructor
    · rintro ⟨w, hsearched, hverb | htext⟩
      · exact Or.inr ⟨w, hsearched, hverb⟩
      · exact Or.inl ⟨w, hsearched, htext⟩
    · rintro (⟨w, hsearched, htext⟩ | ⟨w, hsearched, hverb⟩)
      · exact ⟨w, hsearched, Or.inr htext⟩
      · exact ⟨w, hsearched, Or.inl hverb⟩
  · obtain ⟨f, hf, hlists⟩ := Option.map_eq_some_iff.mp
      ((Ram.indexed_ramBegin.runFrom hram).stored _ a hfact)
    obtain ⟨hsubjects, hobjects, hadverbs⟩ := record_lists double (htraceable.refers _ hrow) he
    refine ⟨f, hf, ?_⟩
    rw [hsubjects, hobjects, hadverbs, hlists]
    exact lists_eq htexts

end

/-! The cat and the dog in both engines. -/

deriving instance DecidableEq for Disk.Entry

deriving instance DecidableEq for Ram.Insertion

def cat : Entry := Disk.isEntry "katze" "tier" "1"

def dog : Entry := Disk.isEntry "hund" "tier" "2"

def columnsFor (e : Entry) : Columns where
  subjects := e.subjects
  objects := e.objects
  verbs := e.verbs
  adverbs := e.adverbs
  extra := []
  questionword := e.questionword
  filename := e.filename
  line := e.line
  truth := 1

def wordHund : Nat → List Word := fun _ => [⟨"hund".toList⟩]

def catAndDog : List Operation := [.addFact Disk.quiet cat, .addFact Disk.quiet dog]

def onDisk : Traced := run (Traced.step Disk.german) Traced.fresh catAndDog

theorem plainEntry_dog : PlainEntry dog where
  verbs := ⟨by simp [dog, Disk.isEntry], by decide +kernel, by decide +kernel, by decide +kernel⟩
  subjects := ⟨by simp [dog, Disk.isEntry], by decide +kernel, by decide +kernel, by decide +kernel⟩
  objects := ⟨by simp [dog, Disk.isEntry], by decide +kernel, by decide +kernel, by decide +kernel⟩
  adverbs := ⟨by simp [dog, Disk.isEntry], by decide +kernel, by decide +kernel, by decide +kernel⟩

theorem engines_agree_dog : ∃ s row,
    (row ∈ selectedFacts (fun _ _ => false) Disk.german onDisk.state.db (asked wordHund [0]) ↔
        1 ∈ ramSearchFactsForWordsInNet Disk.german s wordHund 10 [0] ∨
          ∃ w, Ram.Searched Disk.german wordHund [0] w ∧ w ∈ Disk.divideWords dog.verbs) ∧
      ∃ f, s.facts[1]? = some f ∧ f.lists =
        ⟨(onDisk.state.db.argv id row).fact.subjects, (onDisk.state.db.argv id row).fact.objects,
          (onDisk.state.db.argv id row).fact.adverbs⟩ := by
  have hram : (runInsertions [.fact (columnsFor cat) false, .fact (columnsFor dog) false]).any
      (fun r => decide ((Insertion.fact (columnsFor dog) false, some 1) ∈ r.2) &&
        decide (((ramSearchFactsForWordsInNet Disk.german r.1 wordHund 10 [0]).length : Int) < 10))
      = true := by decide +kernel
  obtain ⟨⟨s, log⟩, hrun, hboth⟩ := (Option.any_eq_true _ _).mp hram
  rw [Bool.and_eq_true, decide_eq_true_eq, decide_eq_true_eq] at hboth
  have horigin : onDisk.origin.any (fun o => decide (o.2 = dog)) = true := by decide +kernel
  obtain ⟨⟨row, e⟩, hrow, he⟩ := List.any_eq_true.mp horigin
  obtain rfl : e = dog := of_decide_eq_true he
  have hdisk : Meets (Traced.step Disk.german) (fun t op => Indexably Disk.german t.state op ∧
      Readably Disk.german t.state op) Traced.fresh catAndDog := by
    refine ⟨⟨?_, ?_⟩, ⟨?_, ?_⟩, trivial⟩
    · intro env rel e h
      cases h
      exact ⟨by decide +kernel, fun _ => ⟨by decide +kernel, by decide +kernel,
        ⟨by decide +kernel, by decide +kernel⟩, by decide +kernel, rfl⟩⟩
    · intro env rel e h
      cases h
      exact ⟨rfl, rfl, ⟨by decide +kernel, by decide +kernel⟩, by decide +kernel,
        Or.inr (Or.inr ⟨_, by decide +kernel, rfl⟩)⟩
    · intro env rel e h
      cases h
      exact ⟨by decide +kernel, fun _ => ⟨by decide +kernel, by decide +kernel,
        ⟨by decide +kernel, by decide +kernel⟩, by decide +kernel, rfl⟩⟩
    · intro env rel e h
      cases h
      exact ⟨rfl, rfl, ⟨by decide +kernel, by decide +kernel⟩, by decide +kernel,
        Or.inl (by decide +kernel)⟩
  have hasked : Answerable Disk.german wordHund [0] := by
    refine ⟨by decide +kernel, by decide +kernel, fun p _ w hw => ?_⟩
    obtain rfl : w = ⟨"hund".toList⟩ := List.mem_singleton.mp hw
    exact ⟨by simp, by decide +kernel, by decide +kernel, by decide +kernel⟩
  exact ⟨s, row, engines_agree hdisk hrun hasked hboth.2 id hrow hboth.1 ⟨rfl, rfl, rfl, rfl⟩
    plainEntry_dog⟩

end Freehal.Hal2012
