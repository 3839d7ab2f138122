import Freehal.Disk.Lemmas.Entries

/-!
# When a fact is added as a whole

The first script of a fact runs to its end exactly when it can write the key, the words and the
line. The error of the second script is none, whatever happens.
-/

namespace Freehal.Disk

open Lib (Table runScript bind_eq_ok runScript_append runScript_cons_ok runScript_split)
open Universal (Config)

variable {cfg : Config} {env : Environment} {e : Entry} {s : State}

/-- The number of statements of the first script of a fact. -/
def Entry.firstLength (e : Entry) : Nat :=
  (e.setWords.filter fun w => w.head? ≠ some ' ').length + (if e.isSynonym 0 then 1 else 0) + 2

/-- The first script can write its words and its line, the key is written as it is and is free,
and nothing stops the script from outside. -/
structure Insertable (env : Environment) (e : Entry) (s : State) : Prop where
  uninterrupted : ∀ k, env.first = some k → e.firstLength ≤ k
  words : ∀ w ∈ e.setWords, Literal w
  line : ∃ line, numeral e.line = .ok line
  clipped : clipped (s.nextKey env.key 0) = s.nextKey env.key 0
  newFact : ∀ row ∈ s.db.facts.rows, row.id ≠ s.nextKey env.key 0
  newFlags : ∀ row ∈ s.db.relFactFlag.rows, row.fact ≠ s.nextKey env.key 0

/-! ## The words of the first script -/

theorem sqlSetWord_length (key : Int) (w : Str) (s : State) :
    (sqlSetWord key w s).1.length = if w.head? ≠ some ' ' then 1 else 0 := by
  by_cases hw : w.head? = some ' '
  · simp [sqlSetWord_blank hw, hw]
  · simp [sqlSetWord_eq hw, hw]

theorem setWords_length (key : Int) (ws : List Str) (s : State) :
    (ws.mapM (sqlSetWord key) s).1.flatten.length
      = (ws.filter fun w => w.head? ≠ some ' ').length := by
  induction ws generalizing s with
  | nil => rfl
  | cons w ws ih =>
      rw [mapM_cons_eq, List.flatten_cons, List.length_append, ih, sqlSetWord_length,
        List.filter_cons]
      by_cases hw : w.head? = some ' '
      · simp [hw]
      · simp [hw, Nat.add_comm]

/-- Every word that is set has its statement. -/
theorem insertWord_mem (key : Int) {w : Str} {ws : List Str} (hw : w ∈ ws)
    (hb : w.head? ≠ some ' ') (s : State) :
    ∃ id, .insertWord id (stored w) ∈ (ws.mapM (sqlSetWord key) s).1.flatten := by
  induction ws generalizing s with
  | nil => cases hw
  | cons v ws ih =>
      rw [mapM_cons_eq, List.flatten_cons]
      rcases List.mem_cons.mp hw with rfl | hw
      · exact ⟨_, List.mem_append_left _ (by rw [sqlSetWord_eq hb]; exact List.mem_singleton.mpr rfl)⟩
      · obtain ⟨id, hid⟩ := ih hw (sqlSetWord key v s).2
        exact ⟨id, List.mem_append_right _ hid⟩

/-- And there is no other statement. -/
theorem mem_setWords (key : Int) (ws : List Str) (s : State) :
    ∀ i ∈ (ws.mapM (sqlSetWord key) s).1.flatten,
      ∃ id, ∃ w ∈ ws, w.head? ≠ some ' ' ∧ i = .insertWord id (stored w) := by
  apply mapM_forall
  intro w hw s i hi
  by_cases hb : w.head? = some ' '
  · rw [sqlSetWord_blank hb] at hi
    cases hi
  · rw [sqlSetWord_eq hb] at hi
    exact ⟨_, w, hw, hb, List.mem_singleton.mp hi⟩

theorem exec_insertWord_ok {id : Int} {word : Str} {db : Database} :
    (∃ db', (Statement.insertWord id word).exec db = .ok db') ↔ '"' ∉ word := by
  by_cases hq : '"' ∈ word
  · simp [Statement.exec, literal, hq, bind, Except.bind]
  · simp [Statement.exec, literal, hq, bind, Except.bind, pure, Except.pure]

theorem insertSynonym_words : ∀ w ∈ [e.subjects, lastWord e.subjects, e.objects,
    lastWord e.objects], w ∈ e.setWords := by
  intro w hw
  simp only [List.mem_cons, List.not_mem_nil, or_false] at hw
  rcases hw with rfl | rfl | rfl | rfl <;> simp [Entry.setWords]

/-! ## The first script -/

/-- The statements in front of the row of the fact. -/
def Entry.front (e : Entry) (key : Int) (s : State) : List Statement :=
  (e.setWords.mapM (sqlSetWord key) s).1.flatten ++ if e.isSynonym 0 then [e.insertSynonym] else []

theorem front_target (key : Int) : ∀ i ∈ e.front key s,
    i.target ≠ .facts ∧ i.target ≠ .relFactFlag := by
  intro i hi
  rcases List.mem_append.mp hi with hi | hi
  · obtain ⟨id, w, _, _, rfl⟩ := mem_setWords _ _ _ i hi
    exact ⟨by simp [Statement.target], by simp [Statement.target]⟩
  · split at hi
    · rw [List.mem_singleton.mp hi]
      exact ⟨by simp [Entry.insertSynonym, Statement.target],
        by simp [Entry.insertSynonym, Statement.target]⟩
    · cases hi

theorem front_ok (key : Int) (hwords : ∀ w ∈ e.setWords, Literal w)
    (hline : ∃ line, numeral e.line = .ok line) (db : Database) :
    ∀ i ∈ e.front key s, ∃ db', i.exec db = .ok db' := by
  intro i hi
  rcases List.mem_append.mp hi with hi | hi
  · obtain ⟨id, w, hw, hb, rfl⟩ := mem_setWords _ _ _ i hi
    exact exec_insertWord_ok.mpr ((hwords w hw).resolve_left hb)
  · split at hi
    · rw [List.mem_singleton.mp hi]
      exact exec_insertSynonym.mpr ⟨fun w hw => hwords w (insertSynonym_words w hw), hline⟩
    · cases hi

theorem exec_keeps {i : Statement} {db db' : Database} (h : i.exec db = .ok db')
    (hi : i.target ≠ .facts ∧ i.target ≠ .relFactFlag) :
    db'.facts = db.facts ∧ db'.relFactFlag = db.relFactFlag :=
  ⟨(exec_frame h).facts hi.1, (exec_frame h).flags hi.2⟩

/-- The statements in front of the row leave the facts and their flags alone. -/
theorem front_keeps (key : Int) (s : State) (db : Database) :
    (runScript Statement.exec .other none (e.front key s) db).1.facts = db.facts
      ∧ (runScript Statement.exec .other none (e.front key s) db).1.relFactFlag
        = db.relFactFlag := by
  apply Lib.runScript_induction (s := db)
    (P := fun db' => db'.facts = db.facts ∧ db'.relFactFlag = db.relFactFlag) ⟨rfl, rfl⟩
  intro i hi db₁ db₂ ⟨hfacts, hflags⟩ hexec
  obtain ⟨h₁, h₂⟩ := exec_keeps hexec (front_target key i hi)
  exact ⟨h₁.trans hfacts, h₂.trans hflags⟩

/-- How the first script runs to its end. -/
theorem run_front_iff {key pk : Int} {s : State} {db db' : Database} :
    runScript Statement.exec .other none (e.front key s ++ e.insertEntry pk 0
        :: [.insertFlags ((0 : Int) ≠ 0) pk e.flags]) db = (db', none)
      ↔ ∃ db₁ line facts flags, runScript Statement.exec .other none (e.front key s) db
          = (db₁, none)
        ∧ (∀ w ∈ e.texts, Literal w) ∧ numeral e.line = .ok line
        ∧ db.facts.insert (e.row db₁ pk 0 line) = some facts
        ∧ db.relFactFlag.insert ⟨pk, e.flags⟩ = some flags
        ∧ db' = { db₁ with facts := facts, relFactFlag := flags } := by
  have hkeep := front_keeps (e := e) key s db
  constructor
  · intro hrun
    obtain ⟨db₁, db₂, hrun₁, hentry, hrun₂⟩ := runScript_split hrun
    obtain ⟨db₃, hexec, hend⟩ := Lib.runScript_cons_split hrun₂
    cases hend
    rw [hrun₁] at hkeep
    obtain ⟨htexts, line, hline, hinsert⟩ := exec_insertEntry.mp hentry
    obtain ⟨facts, hfacts, rfl⟩ := by simpa using hinsert
    obtain ⟨flags, hflags, rfl⟩ := by simpa using exec_insertFlags.mp hexec
    exact ⟨db₁, line, facts, flags, hrun₁, htexts, hline, hkeep.1 ▸ hfacts, hkeep.2 ▸ hflags, rfl⟩
  · intro ⟨db₁, line, facts, flags, hrun₁, htexts, hline, hfacts, hflags, hdb'⟩
    rw [hrun₁] at hkeep
    rw [← hkeep.1] at hfacts
    rw [← hkeep.2] at hflags
    have hentry : (e.insertEntry pk 0).exec db₁ = .ok { db₁ with facts := facts } :=
      exec_insertEntry.mpr ⟨htexts, line, hline, by simpa using hfacts⟩
    have hexec : (Statement.insertFlags ((0 : Int) ≠ 0) pk e.flags).exec
        { db₁ with facts := facts } = .ok { db₁ with facts := facts, relFactFlag := flags } :=
      exec_insertFlags.mpr (by simpa using hflags)
    rw [runScript_append hrun₁, runScript_cons_ok hentry, runScript_cons_ok hexec, hdb']
    rfl

theorem Parts.first_eq (p : Parts cfg env 0 e s) :
    p.first ++ genSqlAddVerbFlags (s.nextKey env.key 0) 0 e
      = e.front env.key (getLastPk env.key 0 s).2 ++ e.insertEntry (s.nextKey env.key 0) 0
        :: [.insertFlags ((0 : Int) ≠ 0) (s.nextKey env.key 0) e.flags] := by
  have hgen := p.gen₁
  rw [genSqlAddEntry_eq, Prod.mk.injEq] at hgen
  rw [← hgen.1, Entry.front, genSqlAddVerbFlags]
  simp

theorem front_length (key : Int) : (e.front key s).length + 2 = e.firstLength := by
  rw [Entry.front, List.length_append, setWords_length, Entry.firstLength]
  split <;> rfl

/-- The first script ended without an error. -/
def Parts.Completed (p : Parts cfg env 0 e s) : Prop :=
  (runScript Statement.exec .other env.first
    (p.first ++ genSqlAddVerbFlags (s.nextKey env.key 0) 0 e) s.db).2 = none

theorem Parts.completed_run (p : Parts cfg env 0 e s) (h : p.Completed) :
    (∀ k, env.first = some k → e.firstLength ≤ k)
      ∧ runScript Statement.exec .other none (e.front env.key (getLastPk env.key 0 s).2
        ++ e.insertEntry (s.nextKey env.key 0) 0
          :: [.insertFlags ((0 : Int) ≠ 0) (s.nextKey env.key 0) e.flags]) s.db
        = (p.s₂.db, none) := by
  have hrun := p.db₂
  rw [p.db₁] at hrun
  obtain ⟨hrun, hlen⟩ := Lib.runScript_completed (Prod.ext hrun.symm h)
  rw [p.first_eq] at hrun hlen
  refine ⟨fun k hk => ?_, hrun⟩
  have hle := hlen k hk
  rw [← front_length env.key]
  simpa using hle

/-- The first script runs to its end exactly where the fact is insertable. -/
theorem Parts.completed_iff (p : Parts cfg env 0 e s)
    (hclip : Disk.clipped (s.nextKey env.key 0) = s.nextKey env.key 0) :
    p.Completed ↔ Insertable env e s := by
  constructor
  · intro h
    obtain ⟨huninterrupted, hrun⟩ := p.completed_run h
    obtain ⟨db₁, line, facts, flags, hfront, _, hline, hfacts, hflags, _⟩ := run_front_iff.mp hrun
    refine ⟨huninterrupted, fun w hw => ?_, ⟨line, hline⟩, hclip, fun row hrow => ?_,
      fun row hrow => ?_⟩
    · by_cases hb : w.head? = some ' '
      · exact Or.inl hb
      · obtain ⟨id, hid⟩ := insertWord_mem env.key hw hb (getLastPk env.key 0 s).2
        obtain ⟨db, db', hexec⟩ := Lib.exec_of_mem (List.mem_append_left _ hid) hfront
        exact Or.inr (exec_insertWord_ok.mp ⟨db', hexec⟩)
    · have hfree := (Table.rows_insert hfacts).1 row hrow
      simp only [FactRow.clash, Entry.row, hclip, decide_eq_false_iff_not] at hfree
      exact fun heq => hfree heq.symm
    · have hfree := (Table.rows_insert hflags).1 row hrow
      simp only [FlagRow.clash, decide_eq_false_iff_not] at hfree
      exact fun heq => hfree heq.symm
  · intro h
    obtain ⟨line, hline⟩ := h.line
    obtain ⟨db₁, hfront, _⟩ : ∃ db₁, runScript Statement.exec .other none
        (e.front env.key (getLastPk env.key 0 s).2) s.db = (db₁, none) ∧ True :=
      Lib.runScript_ok (P := fun _ => True) trivial fun i hi db _ =>
        (front_ok env.key h.words h.line db i hi).imp fun _ hexec => And.intro hexec trivial
    have hfacts : s.db.facts.Free (e.row db₁ (s.nextKey env.key 0) 0 line) := by
      intro row hrow
      simp only [FactRow.clash, Entry.row, hclip, decide_eq_false_iff_not]
      exact fun heq => h.newFact row hrow heq.symm
    have hflags : s.db.relFactFlag.Free ⟨s.nextKey env.key 0, e.flags⟩ := by
      intro row hrow
      simp only [FlagRow.clash, decide_eq_false_iff_not]
      exact fun heq => h.newFlags row hrow heq.symm
    have hrun := run_front_iff.mpr ⟨db₁, line, _, _, hfront,
      fun w hw => h.words w (texts_subset_setWords e w hw), hline, Table.insert_of_free hfacts,
      Table.insert_of_free hflags, rfl⟩
    rw [Parts.Completed, p.first_eq]
    cases hfirst : env.first with
    | none => rw [hrun]
    | some k =>
        have hle := h.uninterrupted k hfirst
        rw [← front_length env.key (s := (getLastPk env.key 0 s).2)] at hle
        rw [Lib.runScript_of_length_le (by simpa using hle), hrun]

/-- Then it has added the row and the flags. -/
theorem Parts.completed_rows (p : Parts cfg env 0 e s) (h : p.Completed) :
    ∃ db line, numeral e.line = .ok line
      ∧ p.s₂.db.facts.rows = s.db.facts.rows ++ [e.row db (s.nextKey env.key 0) 0 line]
      ∧ p.s₂.db.relFactFlag.rows = s.db.relFactFlag.rows ++ [⟨s.nextKey env.key 0, e.flags⟩] := by
  obtain ⟨db₁, line, facts, flags, _, _, hline, hfacts, hflags, hdb⟩ :=
    run_front_iff.mp (p.completed_run h).2
  rw [hdb]
  exact ⟨db₁, line, hline, (Table.rows_insert hfacts).2, (Table.rows_insert hflags).2⟩

/-- Where it does not run to its end, there are no new flags. -/
theorem Parts.completed_or (p : Parts cfg env 0 e s) :
    p.Completed ∨ p.s₂.db.relFactFlag = s.db.relFactFlag := by
  have hlast (flags : Statement) : (runScript Statement.exec .other env.first
      (e.front env.key (getLastPk env.key 0 s).2 ++ [e.insertEntry (s.nextKey env.key 0) 0]
        ++ [flags]) s.db).2 = none
      ∨ (runScript Statement.exec .other env.first
        (e.front env.key (getLastPk env.key 0 s).2 ++ [e.insertEntry (s.nextKey env.key 0) 0]
          ++ [flags]) s.db).1.relFactFlag = s.db.relFactFlag := by
    apply Lib.runScript_last (P := fun db : Database => db.relFactFlag = s.db.relFactFlag) rfl
    intro i hi db db' hdb hexec
    refine ((exec_frame hexec).flags ?_).trans hdb
    rcases List.mem_append.mp hi with hi | hi
    · exact (front_target _ i hi).2
    · rw [List.mem_singleton.mp hi]
      simp [Entry.insertEntry, Statement.target]
  rw [p.db₂, p.db₁, Parts.Completed, p.first_eq]
  simpa only [List.append_assoc, List.singleton_append] using hlast _

/-! ## The second script -/

theorem exec_not_notUnique {i : Statement} {db : Database}
    (hi : i.target = .word ∨ i.target = .relWordFact) : i.exec db ≠ .error .notUnique := by
  cases i with
  | insertWord id word =>
      by_cases hq : '"' ∈ word
      · simp [Statement.exec, literal, hq, bind, Except.bind]
      · simp [Statement.exec, literal, hq, bind, Except.bind, pure, Except.pure]
  | insertIndex word fact table =>
      cases word with
      | minusOne => simp [Statement.exec, Database.scalar, bind, Except.bind, pure, Except.pure]
      | selectId word =>
          by_cases hq : '"' ∈ word
          · simp [Statement.exec, Database.scalar, literal, hq, bind, Except.bind]
          · simp [Statement.exec, Database.scalar, literal, hq, bind, Except.bind, pure,
              Except.pure]
  | insertSynonym => rcases hi with hi | hi <;> cases hi
  | insertEntry clause => cases clause <;> rcases hi with hi | hi <;> cases hi
  | insertFlags clause => cases clause <;> rcases hi with hi | hi <;> cases hi
  | deleteRecord => rcases hi with hi | hi <;> cases hi
  | deleteFileid clause => cases clause <;> rcases hi with hi | hi <;> cases hi
  | deleteSynonyms => rcases hi with hi | hi <;> cases hi

theorem Parts.second_target (p : Parts cfg env 0 e s) :
    ∀ i ∈ p.second, i.target = .word ∨ i.target = .relWordFact := by
  have hgen : p.second = (genSqlAddWordFactRelations cfg env.key (s.nextKey env.key 0) 0 e
    p.s₂).1 := (congrArg Prod.fst p.gen₂).symm
  rw [hgen]
  exact genSqlAddWordFactRelations_forall (fun _ _ => Or.inl rfl) (fun _ => Or.inr rfl) p.s₂

/-- A call that is not rejected reports success, whatever its scripts did. -/
theorem addEntry_reports : (addEntry cfg env 0 e s).1 = (s.nextKey env.key 0, none) := by
  have p := parts cfg env 0 e s
  rw [p.exec₂]
  suffices h : (runScript Statement.exec .other env.second p.second p.s₃.db).2
      ≠ some .notUnique by
    unfold sqlExecute
    split
    · rename_i heq
      exact absurd (congrArg Prod.snd heq) h
    · rfl
  intro h
  rcases Lib.runScript_error h with h | ⟨i, hi, db, hexec⟩
  · cases h
  · exact exec_not_notUnique (p.second_target i hi) hexec

/-- The second script leaves the facts and their flags alone. -/
theorem Parts.second_keeps (p : Parts cfg env 0 e s) :
    (addEntry cfg env 0 e s).2.db.facts = p.s₂.db.facts
      ∧ (addEntry cfg env 0 e s).2.db.relFactFlag = p.s₂.db.relFactFlag := by
  rw [p.db₄, ← p.db₃]
  constructor
  · apply runScript_frame (·.facts) .facts (fun _ _ _ h hne => h.facts hne)
    intro i hi heq
    rcases p.second_target i hi with h | h <;> (rw [heq] at h; cases h)
  · apply runScript_frame (·.relFactFlag) .relFactFlag (fun _ _ _ h hne => h.flags hne)
    intro i hi heq
    rcases p.second_target i hi with h | h <;> (rw [heq] at h; cases h)

/-! ## Whole calls -/

/-- The row, the flags and the rows of the index are there under the key. -/
structure Present (cfg : Config) (e : Entry) (pk : Int) (db db' : Database) : Prop where
  fact : ∃ row, row.id = pk ∧ (∃ words line, numeral e.line = .ok line ∧ row = e.row words pk 0 line)
    ∧ db'.facts.rows = db.facts.rows ++ [row]
  flags : db'.relFactFlag.rows = db.relFactFlag.rows ++ [⟨pk, e.flags⟩]
  index : ∀ w ∈ e.indexWords cfg, ∃ id, ⟨id, stored w⟩ ∈ db'.word.rows
    ∧ ⟨some id, pk, 1⟩ ∈ db'.relWordFact.rows

/-- The second script can relate every word to the fact. -/
structure Indexable (cfg : Config) (env : Environment) (e : Entry) (s : State) : Prop where
  uninterrupted : env.second = none
  counted : Counted s
  words : WordsSet cfg env s e
  columns : ∀ w ∈ e.indexWords cfg, NoColumn w

theorem diskAddFact_rejected (h : e.isRejected = true) : diskAddFact cfg env e s = (none, s) := by
  simp only [diskAddFact, h, if_true]
  rfl

theorem diskAddFact_added (h : e.isRejected = false) : diskAddFact cfg env e s
    = (some (s.nextKey env.key 0), (addEntry cfg env 0 e s).2) := by
  rw [diskAddFact_eq h, addEntry_reports]
  rfl

theorem insertable_of_present
    (h : Present cfg e (s.nextKey env.key 0) s.db (addEntry cfg env 0 e s).2.db) :
    Insertable env e s := by
  have p := parts cfg env 0 e s
  obtain ⟨row, hid, ⟨words, line, _, rfl⟩, _⟩ := h.fact
  rcases p.completed_or with hcompleted | hsame
  · exact (p.completed_iff hid).mp hcompleted
  · have hflags := h.flags
    rw [p.second_keeps.2, hsame] at hflags
    exact absurd hflags (by simp)

theorem present_of_insertable (h : Insertable env e s) (hi : Indexable cfg env e s) :
    Present cfg e (s.nextKey env.key 0) s.db (addEntry cfg env 0 e s).2.db := by
  have p := parts cfg env 0 e s
  obtain ⟨words, line, hline, hfacts, hflags⟩ := p.completed_rows ((p.completed_iff h.clipped).mpr h)
  obtain ⟨_, index, _, hdb, _, _, hindexed⟩ := p.indexes hi.counted hi.words hi.uninterrupted
  refine ⟨⟨_, h.clipped, ⟨words, line, hline, rfl⟩, ?_⟩, ?_, ?_⟩
  · rw [p.second_keeps.1]; exact hfacts
  · rw [p.second_keeps.2]; exact hflags
  · rw [hdb]; exact (hindexed hi.columns).complete

/-- A key that is in use for flags is not given to a fact that is present. -/
theorem Present.newKey {pk : Int} {db db' : Database} (h : Present cfg e pk db db') :
    ∀ row ∈ db.relFactFlag.rows, row.fact ≠ pk := by
  intro row hrow heq
  have hdistinct := db'.relFactFlag.distinct
  rw [h.flags] at hdistinct
  have hclash := (List.pairwise_append.mp hdistinct).2.2 row hrow _ (List.mem_singleton.mpr rfl)
  simp [FlagRow.clash, heq] at hclash

end Freehal.Disk
