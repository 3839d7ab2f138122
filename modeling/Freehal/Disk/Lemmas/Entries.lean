import Freehal.Disk.Lemmas.Histories

/-!
# The row of an entry

What the statements behind the words of the first script do: the synonym, the row and its flags.
-/

namespace Freehal.Disk

open Lib (Table runScript bind_eq_ok runScript_append)
open Universal (Config)

/-- The word fits into one literal, or is not written at all. -/
def Literal (word : Str) : Prop := word.head? = some ' ' ∨ '"' ∉ stored word

instance (word : Str) : Decidable (Literal word) := inferInstanceAs (Decidable (_ ∨ _))

theorem Settable.literal {word : Str} (h : Settable word) : Literal word := Or.inr h.stored

/-- What `sql_get_word` gives for a word. -/
def Database.value (db : Database) (word : Str) : Option Int :=
  if word.head? = some ' ' then some (-1) else db.wordId (stored word)

theorem scalar_eq_ok {db : Database} {word : Str} {v : Option Int} :
    db.scalar (sqlGetWord word) = .ok v ↔ Literal word ∧ v = db.value word := by
  by_cases hb : word.head? = some ' '
  · simp only [sqlGetWord, hb, if_true, Database.scalar, Except.ok.injEq, Literal, true_or,
      true_and, Database.value]
    exact eq_comm
  · by_cases hq : '"' ∈ stored word
    · simp [sqlGetWord, hb, Database.scalar, literal, hq, Literal, bind, Except.bind]
    · simp only [sqlGetWord, hb, if_false, Database.scalar, literal, hq, Literal, not_false_eq_true,
        or_true, true_and, Database.value, bind, Except.bind, pure, Except.pure,
        Except.ok.injEq]
      exact eq_comm

theorem value_refers {db : Database} {word : Str} (hs : Settable word) (hc : NoColumn word)
    (hh : Holds db.word word) : Refers db.word (db.value word) word := by
  rw [Database.value, if_neg hs.2]
  exact wordId_refers db hc hh

/-- The row that is inserted for an entry. -/
def Entry.row (e : Entry) (db : Database) (pk rel line : Int) : FactRow where
  id := clipped pk
  verb := db.value e.verbs
  subjects := db.value e.subjects
  objects := db.value e.objects
  adverbs := db.value e.adverbs
  questionword := db.value e.questionword
  prio := 50
  fileid := fileid e.filename
  line := line
  rel := if rel ≠ 0 then rel else -1
  truth := e.truth.take 4
  onlyLogic := e.onlyLogic

/-- The texts that the row refers to. -/
def Entry.texts (e : Entry) : List Str :=
  [e.verbs, e.subjects, e.objects, e.adverbs, e.questionword]

theorem texts_subset_setWords (e : Entry) : ∀ w ∈ e.texts, w ∈ e.setWords := by
  intro w hw
  simp only [Entry.texts, Entry.setWords, List.mem_cons, List.not_mem_nil, or_false] at hw ⊢
  rcases hw with rfl | rfl | rfl | rfl | rfl <;> simp

variable {e : Entry} {pk rel : Int} {db db' : Database}

theorem insertInto_ok_iff {ρ : Type} {clash : ρ → ρ → Bool} {t t' : Table clash} {row : ρ} :
    insertInto t row = .ok t' ↔ t.insert row = some t' := by
  unfold insertInto
  split <;> simp [*]

/-- When the row of an entry is inserted, and where. -/
theorem exec_insertEntry : (e.insertEntry pk rel).exec db = .ok db'
    ↔ (∀ w ∈ e.texts, Literal w) ∧ ∃ line, numeral e.line = .ok line
      ∧ if rel = 0 then ∃ t, db.facts.insert (e.row db pk rel line) = some t
          ∧ db' = { db with facts := t }
        else ∃ t, db.clauses.insert (e.row db pk rel line) = some t
          ∧ db' = { db with clauses := t } := by
  simp only [Entry.insertEntry, Statement.exec, bind_eq_ok, scalar_eq_ok]
  constructor
  · rintro ⟨_, ⟨hv, rfl⟩, _, ⟨hs, rfl⟩, _, ⟨ho, rfl⟩, _, ⟨ha, rfl⟩, _, ⟨hq, rfl⟩, line, hline, h⟩
    refine ⟨?_, line, hline, ?_⟩
    · simp [Entry.texts, hv, hs, ho, ha, hq]
    · by_cases hrel : rel = 0
      · simp only [hrel, ne_eq, not_true, decide_false, Bool.false_eq_true, if_false,
          bind_eq_ok, insertInto_ok_iff] at h
        obtain ⟨t, ht, h⟩ := h
        cases h
        simp only [hrel, if_true]
        exact ⟨t, ht, rfl⟩
      · simp only [hrel, ne_eq, not_false_eq_true, decide_true, if_true, bind_eq_ok,
          insertInto_ok_iff] at h
        obtain ⟨t, ht, h⟩ := h
        cases h
        simp only [hrel, if_false]
        exact ⟨t, by simpa [Entry.row, hrel] using ht, rfl⟩
  · rintro ⟨htexts, line, hline, h⟩
    simp only [Entry.texts, List.mem_cons, List.not_mem_nil, or_false, forall_eq_or_imp,
      forall_eq] at htexts
    obtain ⟨hv, hs, ho, ha, hq⟩ := htexts
    refine ⟨_, ⟨hv, rfl⟩, _, ⟨hs, rfl⟩, _, ⟨ho, rfl⟩, _, ⟨ha, rfl⟩, _, ⟨hq, rfl⟩, line, hline, ?_⟩
    by_cases hrel : rel = 0
    · simp only [hrel, if_true] at h
      obtain ⟨t, ht, rfl⟩ := h
      simp only [hrel, ne_eq, not_true, decide_false, Bool.false_eq_true, if_false, bind_eq_ok,
        insertInto_ok_iff]
      exact ⟨t, ht, rfl⟩
    · simp only [hrel, if_false] at h
      obtain ⟨t, ht, rfl⟩ := h
      simp only [hrel, ne_eq, not_false_eq_true, decide_true, if_true, bind_eq_ok,
        insertInto_ok_iff]
      exact ⟨t, by simpa [Entry.row, hrel] using ht, rfl⟩

/-- When the flags of an entry are inserted, and where. -/
theorem exec_insertFlags : (Statement.insertFlags (rel ≠ 0) pk e.flags).exec db = .ok db'
    ↔ if rel = 0 then ∃ t, db.relFactFlag.insert ⟨pk, e.flags⟩ = some t
        ∧ db' = { db with relFactFlag := t }
      else ∃ t, db.relClauseFlag.insert ⟨pk, e.flags⟩ = some t
        ∧ db' = { db with relClauseFlag := t } := by
  by_cases hrel : rel = 0
  · simp only [Statement.exec, hrel, ne_eq, not_true, decide_false, Bool.false_eq_true, if_false,
      if_true, bind_eq_ok, insertInto_ok_iff]
    constructor
    · rintro ⟨t, ht, h⟩; cases h; exact ⟨t, ht, rfl⟩
    · rintro ⟨t, ht, rfl⟩; exact ⟨t, ht, rfl⟩
  · simp only [Statement.exec, hrel, ne_eq, not_false_eq_true, decide_true, if_true, if_false,
      bind_eq_ok, insertInto_ok_iff]
    constructor
    · rintro ⟨t, ht, h⟩; cases h; exact ⟨t, ht, rfl⟩
    · rintro ⟨t, ht, rfl⟩; exact ⟨t, ht, rfl⟩

/-- When the synonym of an entry is inserted. -/
theorem exec_insertSynonym : (∃ db', e.insertSynonym.exec db = .ok db')
    ↔ (∀ w ∈ [e.subjects, lastWord e.subjects, e.objects, lastWord e.objects], Literal w)
      ∧ ∃ line, numeral e.line = .ok line := by
  simp only [Entry.insertSynonym, Statement.exec, bind_eq_ok, scalar_eq_ok]
  constructor
  · rintro ⟨db', _, ⟨h₁, rfl⟩, _, ⟨h₂, rfl⟩, _, ⟨h₃, rfl⟩, _, ⟨h₄, rfl⟩, line, hline, _⟩
    exact ⟨by simp [h₁, h₂, h₃, h₄], line, hline⟩
  · rintro ⟨htexts, line, hline⟩
    simp only [List.mem_cons, List.not_mem_nil, or_false, forall_eq_or_imp, forall_eq] at htexts
    obtain ⟨h₁, h₂, h₃, h₄⟩ := htexts
    exact ⟨_, _, ⟨h₁, rfl⟩, _, ⟨h₂, rfl⟩, _, ⟨h₃, rfl⟩, _, ⟨h₄, rfl⟩, line, hline, rfl⟩

theorem exec_insertSynonym_eq (h : e.insertSynonym.exec db = .ok db') :
    ∃ t, db' = { db with synonym := t } := by
  simp only [Entry.insertSynonym, Statement.exec, bind_eq_ok] at h
  obtain ⟨_, _, _, _, _, _, _, _, line, _, h⟩ := h
  cases h
  exact ⟨_, rfl⟩

/-! ## Reading a row back -/

/-- The columns of a row hold the ids of the words of the entry. -/
structure RowRefers (words : Table WordRow.clash) (row : FactRow) (e : Entry) : Prop where
  verb : Refers words row.verb e.verbs
  subjects : Refers words row.subjects e.subjects
  objects : Refers words row.objects e.objects
  adverbs : Refers words row.adverbs e.adverbs
  questionword : Refers words row.questionword e.questionword

theorem RowRefers.mono {words words' : Table WordRow.clash} {row : FactRow}
    (h : RowRefers words row e) (hp : words.rows <+: words'.rows) : RowRefers words' row e where
  verb := h.verb.mono hp
  subjects := h.subjects.mono hp
  objects := h.objects.mono hp
  adverbs := h.adverbs.mono hp
  questionword := h.questionword.mono hp

theorem row_refers {line : Int} (h : ∀ w ∈ e.texts, Settable w ∧ NoColumn w ∧ Holds db.word w) :
    RowRefers db.word (e.row db pk rel line) e := by
  simp only [Entry.texts, List.mem_cons, List.not_mem_nil, or_false, forall_eq_or_imp,
    forall_eq] at h
  obtain ⟨hv, hs, ho, ha, hq⟩ := h
  exact ⟨value_refers hv.1 hv.2.1 hv.2.2, value_refers hs.1 hs.2.1 hs.2.2,
    value_refers ho.1 ho.2.1 ho.2.2, value_refers ha.1 ha.2.1 ha.2.2,
    value_refers hq.1 hq.2.1 hq.2.2⟩

/-- The rows that are new since `db` refer to the words of the entry. -/
def NewRefer (words : Table WordRow.clash) (e : Entry) (db db' : Database) : Prop :=
  (∀ row ∈ db'.facts.rows, row ∈ db.facts.rows ∨ RowRefers words row e)
    ∧ ∀ row ∈ db'.clauses.rows, row ∈ db.clauses.rows ∨ RowRefers words row e

theorem runScript_newRefer (e : Entry) (pk rel : Int) (interrupt : Option Nat) (db : Database)
    (h : ∀ w ∈ e.texts, Settable w ∧ NoColumn w ∧ Holds db.word w) :
    let db' := (runScript Statement.exec .other interrupt
      ((if e.isSynonym rel then [e.insertSynonym] else []) ++ [e.insertEntry pk rel]
        ++ genSqlAddVerbFlags pk rel e) db).1
    db'.word = db.word ∧ NewRefer db.word e db db' := by
  apply Lib.runScript_induction (s := db)
    (P := fun db' => db'.word = db.word ∧ NewRefer db.word e db db')
    ⟨rfl, fun _ h => Or.inl h, fun _ h => Or.inl h⟩
  rintro i hi db₁ db₂ ⟨hword, hfacts, hclauses⟩ hexec
  simp only [List.mem_append, List.mem_singleton, genSqlAddVerbFlags] at hi
  rcases hi with (hi | rfl) | rfl
  · split at hi
    · rw [List.mem_singleton.mp hi] at hexec
      obtain ⟨t, rfl⟩ := exec_insertSynonym_eq hexec
      exact ⟨hword, hfacts, hclauses⟩
    · cases hi
  · obtain ⟨_, line, _, hexec⟩ := exec_insertEntry.mp hexec
    have hrefers : RowRefers db.word (e.row db₁ pk rel line) e := by
      rw [← hword] at h ⊢
      exact row_refers h
    split at hexec
    · obtain ⟨t, ht, rfl⟩ := hexec
      refine ⟨hword, fun row hrow => ?_, hclauses⟩
      rw [(Table.rows_insert ht).2] at hrow
      rcases List.mem_append.mp hrow with hrow | hrow
      · exact hfacts row hrow
      · rw [List.mem_singleton.mp hrow]; exact Or.inr hrefers
    · obtain ⟨t, ht, rfl⟩ := hexec
      refine ⟨hword, hfacts, fun row hrow => ?_⟩
      rw [(Table.rows_insert ht).2] at hrow
      rcases List.mem_append.mp hrow with hrow | hrow
      · exact hclauses row hrow
      · rw [List.mem_singleton.mp hrow]; exact Or.inr hrefers
  · have hexec := exec_insertFlags.mp hexec
    split at hexec <;> (obtain ⟨t, _, rfl⟩ := hexec; exact ⟨hword, hfacts, hclauses⟩)

end Freehal.Disk
