import Freehal.Disk.Lemmas.Words

/-!
# What the scripts of an entry add

Wherever the two scripts of an entry stop, they have removed nothing, and every new row belongs to
the entry.
-/

namespace Freehal.Disk

open Lib (Table runScript bind_eq_ok)
open Universal (Config)

/-! ## One table for each statement -/

inductive Target where
  | word | synonym | facts | clauses | relFactFlag | relClauseFlag | relWordFact
deriving DecidableEq

def Statement.target : Statement → Target
  | .insertWord .. => .word
  | .insertSynonym .. | .deleteSynonyms _ => .synonym
  | .insertEntry clause .. | .deleteFileid clause _ => if clause then .clauses else .facts
  | .deleteRecord _ => .facts
  | .insertFlags clause .. => if clause then .relClauseFlag else .relFactFlag
  | .insertIndex .. => .relWordFact

/-- The tables other than the one that a statement writes to stay as they are. -/
structure Frame (target : Target) (db db' : Database) : Prop where
  word : target ≠ .word → db'.word = db.word
  facts : target ≠ .facts → db'.facts = db.facts
  flags : target ≠ .relFactFlag → db'.relFactFlag = db.relFactFlag
  index : target ≠ .relWordFact → db'.relWordFact = db.relWordFact

theorem exec_frame {i : Statement} {db db' : Database} (h : i.exec db = .ok db') :
    Frame i.target db db' := by
  cases i with
  | insertWord id word =>
      simp only [Statement.exec, bind_eq_ok] at h
      obtain ⟨_, _, h⟩ := h
      cases h
      exact ⟨fun hne => absurd rfl hne, fun _ => rfl, fun _ => rfl, fun _ => rfl⟩
  | insertSynonym a aLast b bLast fileid line =>
      simp only [Statement.exec, bind_eq_ok] at h
      obtain ⟨_, _, _, _, _, _, _, _, _, _, h⟩ := h
      cases h
      exact ⟨fun _ => rfl, fun _ => rfl, fun _ => rfl, fun _ => rfl⟩
  | insertEntry clause id v s o a q p f l r tr ol =>
      simp only [Statement.exec, bind_eq_ok] at h
      obtain ⟨_, _, _, _, _, _, _, _, _, _, _, _, h⟩ := h
      cases clause with
      | true =>
          obtain ⟨t, _, h⟩ := bind_eq_ok.mp h
          cases h
          exact ⟨fun _ => rfl, fun _ => rfl, fun _ => rfl, fun _ => rfl⟩
      | false =>
          obtain ⟨t, _, h⟩ := bind_eq_ok.mp h
          cases h
          exact ⟨fun _ => rfl, fun hne => absurd rfl hne, fun _ => rfl, fun _ => rfl⟩
  | insertFlags clause fact flags =>
      cases clause with
      | true =>
          obtain ⟨t, _, h⟩ := bind_eq_ok.mp h
          cases h
          exact ⟨fun _ => rfl, fun _ => rfl, fun _ => rfl, fun _ => rfl⟩
      | false =>
          obtain ⟨t, _, h⟩ := bind_eq_ok.mp h
          cases h
          exact ⟨fun _ => rfl, fun _ => rfl, fun hne => absurd rfl hne, fun _ => rfl⟩
  | insertIndex word fact table =>
      obtain ⟨_, _, h⟩ := bind_eq_ok.mp h
      cases h
      exact ⟨fun _ => rfl, fun _ => rfl, fun _ => rfl, fun hne => absurd rfl hne⟩
  | deleteRecord key =>
      obtain ⟨_, _, h⟩ := bind_eq_ok.mp h
      cases h
      exact ⟨fun _ => rfl, fun hne => absurd rfl hne, fun _ => rfl, fun _ => rfl⟩
  | deleteFileid clause fileid =>
      cases clause with
      | true => cases h; exact ⟨fun _ => rfl, fun _ => rfl, fun _ => rfl, fun _ => rfl⟩
      | false =>
          cases h
          exact ⟨fun _ => rfl, fun hne => absurd rfl hne, fun _ => rfl, fun _ => rfl⟩
  | deleteSynonyms fileid =>
      cases h
      exact ⟨fun _ => rfl, fun _ => rfl, fun _ => rfl, fun _ => rfl⟩

/-- A table that no statement of a script writes to stays as it is. -/
theorem runScript_frame {interrupt : Option Nat} {script : List Statement} {α : Type}
    (table : Database → α) (target : Target)
    (htable : ∀ i db db', Frame i db db' → i ≠ target → table db' = table db)
    (hs : ∀ i ∈ script, i.target ≠ target) (db : Database) :
    table (runScript Statement.exec .other interrupt script db).1 = table db := by
  apply Lib.runScript_induction (s := db) (P := fun db' => table db' = table db) rfl
  intro i hi db₁ db₂ h hexec
  exact (htable _ _ _ (exec_frame hexec) (hs i hi)).trans h

theorem exec_word {i : Statement} {db db' : Database} (h : i.exec db = .ok db') :
    db'.word = db.word ∨ ∃ id word, i = .insertWord id word
      ∧ db'.word = db.word.insertOrIgnore ⟨id, word⟩ := by
  cases i with
  | insertWord id word =>
      simp only [Statement.exec, literal, bind_eq_ok] at h
      obtain ⟨w, hw, h⟩ := h
      cases h
      split at hw
      · cases hw
      · cases hw; exact Or.inr ⟨id, word, rfl, rfl⟩
  | _ =>
      left
      apply (exec_frame h).word
      simp only [Statement.target]
      first | decide | (split <;> decide)

/-- The table of words only grows, and by no id above a bound of the script. -/
theorem runScript_word (interrupt : Option Nat) {script : List Statement} {c : Int}
    (db : Database) (hb : Bounded c script) :
    db.word.rows <+: (runScript Statement.exec .other interrupt script db).1.word.rows
      ∧ (Below db.word c →
        Below (runScript Statement.exec .other interrupt script db).1.word c) := by
  apply Lib.runScript_induction (s := db)
    (P := fun db' => db.word.rows <+: db'.word.rows ∧ (Below db.word c → Below db'.word c))
    ⟨List.prefix_rfl, fun h => h⟩
  rintro i hi db₁ db₂ ⟨hp, hbelow⟩ hexec
  rcases exec_word hexec with hw | ⟨id, word, rfl, hw⟩
  · rw [hw]; exact ⟨hp, hbelow⟩
  · rw [hw]
    exact ⟨hp.trans Table.prefix_insertOrIgnore, fun h =>
      below_insertOrIgnore word (hbelow h) (hb id word hi)⟩

/-- The statements of the scripts of an entry. -/
def ofEntry (pk rel : Int) (e : Entry) : Statement → Prop
  | .insertWord _ _ => True
  | .insertSynonym .. => True
  | .insertEntry clause id .. => clause = decide (rel ≠ 0) ∧ id = clipped pk
  | .insertFlags clause fact flags => clause = decide (rel ≠ 0) ∧ fact = pk ∧ flags = e.flags
  | .insertIndex _ fact _ => fact = pk
  | _ => False

/-- The tables grow by rows of the entry. -/
structure Grows (pk rel : Int) (e : Entry) (db db' : Database) : Prop where
  word : db.word.rows <+: db'.word.rows
  facts : db.facts.rows <+: db'.facts.rows
  newFact : ∀ row ∈ db'.facts.rows, row ∈ db.facts.rows ∨ rel = 0 ∧ row.id = clipped pk
  flags : db.relFactFlag.rows <+: db'.relFactFlag.rows
  newFlag : ∀ row ∈ db'.relFactFlag.rows, row ∈ db.relFactFlag.rows
    ∨ rel = 0 ∧ row = ⟨pk, e.flags⟩
  index : db.relWordFact.rows <+: db'.relWordFact.rows
  newIndex : ∀ row ∈ db'.relWordFact.rows, row ∈ db.relWordFact.rows ∨ row.fact = pk

variable {pk rel : Int} {e : Entry} {db db' db'' : Database}

theorem Grows.refl : Grows pk rel e db db where
  word := List.prefix_rfl
  facts := List.prefix_rfl
  newFact _ h := Or.inl h
  flags := List.prefix_rfl
  newFlag _ h := Or.inl h
  index := List.prefix_rfl
  newIndex _ h := Or.inl h

theorem Grows.trans (h : Grows pk rel e db db') (h' : Grows pk rel e db' db'') :
    Grows pk rel e db db'' where
  word := h.word.trans h'.word
  facts := h.facts.trans h'.facts
  newFact row hrow := (h'.newFact row hrow).elim (h.newFact row) Or.inr
  flags := h.flags.trans h'.flags
  newFlag row hrow := (h'.newFlag row hrow).elim (h.newFlag row) Or.inr
  index := h.index.trans h'.index
  newIndex row hrow := (h'.newIndex row hrow).elim (h.newIndex row) Or.inr

theorem insertInto_eq_ok {ρ : Type} {clash : ρ → ρ → Bool} {t t' : Table clash} {row : ρ}
    (h : insertInto t row = .ok t') : t.Free row ∧ t'.rows = t.rows ++ [row] := by
  unfold insertInto at h
  split at h
  · cases h; exact Table.rows_insert ‹_›
  · cases h

theorem exec_grows {i : Statement} (hi : ofEntry pk rel e i) (h : i.exec db = .ok db') :
    Grows pk rel e db db' := by
  cases i with
  | insertWord id word =>
      simp only [Statement.exec, bind_eq_ok] at h
      obtain ⟨w, _, h⟩ := h
      cases h
      exact { Grows.refl with word := Table.prefix_insertOrIgnore }
  | insertSynonym a aLast b bLast fileid line =>
      simp only [Statement.exec, bind_eq_ok] at h
      obtain ⟨_, _, _, _, _, _, _, _, _, _, h⟩ := h
      cases h
      exact { Grows.refl with }
  | insertEntry clause id v s o a q p f l r tr ol =>
      obtain ⟨hclause, rfl⟩ := hi
      simp only [Statement.exec, bind_eq_ok] at h
      obtain ⟨_, _, _, _, _, _, _, _, _, _, _, _, h⟩ := h
      by_cases hrel : rel = 0
      · simp only [hclause, hrel, ne_eq, not_true, decide_false, Bool.false_eq_true, if_false,
          bind_eq_ok] at h
        obtain ⟨t, ht, h⟩ := h
        cases h
        obtain ⟨_, hrows⟩ := insertInto_eq_ok ht
        have hnew : ∀ row ∈ t.rows, row ∈ db.facts.rows ∨ rel = 0 ∧ row.id = clipped pk := by
          intro row hrow
          rw [hrows] at hrow
          rcases List.mem_append.mp hrow with hrow | hrow
          · exact Or.inl hrow
          · rw [List.mem_singleton.mp hrow]; exact Or.inr ⟨hrel, rfl⟩
        exact { Grows.refl with facts := hrows ▸ List.prefix_append _ _, newFact := hnew }
      · simp only [hclause, hrel, ne_eq, not_false_eq_true, decide_true, if_true, bind_eq_ok] at h
        obtain ⟨t, ht, h⟩ := h
        cases h
        exact { Grows.refl with }
  | insertFlags clause fact flags =>
      obtain ⟨hclause, rfl, rfl⟩ := hi
      by_cases hrel : rel = 0
      · simp only [Statement.exec, hclause, hrel, ne_eq, not_true, decide_false, Bool.false_eq_true,
          if_false, bind_eq_ok] at h
        obtain ⟨t, ht, h⟩ := h
        cases h
        obtain ⟨_, hrows⟩ := insertInto_eq_ok ht
        have hnew : ∀ row ∈ t.rows, row ∈ db.relFactFlag.rows ∨ rel = 0 ∧ row = ⟨fact, e.flags⟩ := by
          intro row hrow
          rw [hrows] at hrow
          rcases List.mem_append.mp hrow with hrow | hrow
          · exact Or.inl hrow
          · exact Or.inr ⟨hrel, List.mem_singleton.mp hrow⟩
        exact { Grows.refl (e := e) with flags := hrows ▸ List.prefix_append _ _, newFlag := hnew }
      · simp only [Statement.exec, hclause, hrel, ne_eq, not_false_eq_true, decide_true, if_true,
          bind_eq_ok] at h
        obtain ⟨t, ht, h⟩ := h
        cases h
        exact { Grows.refl with }
  | insertIndex word fact table =>
      obtain rfl : fact = pk := hi
      simp only [Statement.exec, bind_eq_ok] at h
      obtain ⟨v, _, h⟩ := h
      cases h
      have hnew : ∀ row ∈ (db.relWordFact.insertOrIgnore ⟨v, fact, table⟩).rows,
          row ∈ db.relWordFact.rows ∨ row.fact = fact := by
        intro row hrow
        rcases Table.mem_insertOrIgnore hrow with hrow | rfl
        · exact Or.inl hrow
        · exact Or.inr rfl
      exact { Grows.refl with index := Table.prefix_insertOrIgnore, newIndex := hnew }
  | deleteRecord key => cases hi
  | deleteFileid clause fileid => cases hi
  | deleteSynonyms fileid => cases hi

theorem runScript_grows {interrupt : Option Nat} {script : List Statement}
    (hs : ∀ i ∈ script, ofEntry pk rel e i) (db : Database) :
    Grows pk rel e db (runScript Statement.exec .other interrupt script db).1 := by
  apply Lib.runScript_induction Grows.refl
  intro i hi db₁ db₂ h₁ h₂
  exact h₁.trans (exec_grows (hs i hi) h₂)

/-! ## The scripts -/

theorem mapM_forall {g : Str → StateM State (List Statement)} {P : Statement → Prop}
    {words : List Str} (hg : ∀ w ∈ words, ∀ s, ∀ i ∈ (g w s).1, P i) (s : State) :
    ∀ i ∈ (words.mapM g s).1.flatten, P i := by
  induction words generalizing s with
  | nil => intro i hi; cases hi
  | cons w words ih =>
      intro i hi
      rw [List.mapM_cons] at hi
      rcases List.mem_append.mp hi with hi | hi
      · exact hg w (by simp) s i hi
      · exact ih (fun v hv => hg v (by simp [hv])) _ i hi

theorem sqlSetWord_forall {P : Statement → Prop} {key : Int} {word : Str}
    (hP : ∀ id, P (.insertWord id (stored word))) (s : State) :
    ∀ i ∈ (sqlSetWord key word s).1, P i := by
  intro i hi
  unfold sqlSetWord at hi
  split at hi
  · cases hi
  · rw [List.mem_singleton.mp hi]; exact hP _

/-- What the words, the synonym, the entry and the flags have, every statement of the first script
has. -/
theorem genSqlAddEntry_forall {P : Statement → Prop} {key pk rel : Int} {e : Entry}
    (hword : ∀ id word, P (.insertWord id (stored word))) (hsynonym : P e.insertSynonym)
    (hentry : P (e.insertEntry pk rel)) (hflags : P (.insertFlags (rel ≠ 0) pk e.flags))
    (s : State) :
    ∀ i ∈ (genSqlAddEntry key pk rel e s).1 ++ genSqlAddVerbFlags pk rel e, P i := by
  have hwords : ∀ i ∈ (e.setWords.mapM (sqlSetWord key) s).1.flatten, P i :=
    mapM_forall (fun w _ s => sqlSetWord_forall (fun id => hword id w) s) s
  rw [genSqlAddEntry_eq]
  generalize (e.setWords.mapM (sqlSetWord key) s).1.flatten = words at hwords
  intro i hi
  simp only [genSqlAddVerbFlags, List.mem_append, List.mem_singleton] at hi
  rcases hi with ((hi | hi) | rfl) | rfl
  · exact hwords i hi
  · split at hi
    · rw [List.mem_singleton.mp hi]
      exact hsynonym
    · cases hi
  · exact hentry
  · exact hflags

/-- What the words and the relations have, every statement of the second script has. -/
theorem genSqlAddWordFactRelations_forall {P : Statement → Prop} {cfg : Config}
    {key pk rel : Int} {e : Entry} (hword : ∀ id word, P (.insertWord id (stored word)))
    (hindex : ∀ word, P (.insertIndex (sqlGetWord word) pk (if rel ≠ 0 then 2 else 1)))
    (s : State) : ∀ i ∈ (genSqlAddWordFactRelations cfg key pk rel e s).1, P i := by
  apply mapM_forall
  intro w _ s i hi
  rcases List.mem_append.mp hi with hi | hi
  · exact sqlSetWord_forall (fun id => hword id w) s i hi
  · rw [List.mem_singleton.mp hi]
    exact hindex w

theorem genSqlAddEntry_ofEntry (key pk rel : Int) (e : Entry) (s : State) :
    ∀ i ∈ (genSqlAddEntry key pk rel e s).1 ++ genSqlAddVerbFlags pk rel e, ofEntry pk rel e i :=
  genSqlAddEntry_forall (fun _ _ => trivial) trivial ⟨rfl, rfl⟩ ⟨rfl, rfl, rfl⟩ s

theorem genSqlAddWordFactRelations_ofEntry (cfg : Config) (key pk rel : Int) (e : Entry)
    (s : State) :
    ∀ i ∈ (genSqlAddWordFactRelations cfg key pk rel e s).1, ofEntry pk rel e i :=
  genSqlAddWordFactRelations_forall (fun _ _ => trivial) (fun _ => rfl) s

/-- The first script leaves the index alone. -/
theorem genSqlAddEntry_target (key pk rel : Int) (e : Entry) (s : State) :
    ∀ i ∈ (genSqlAddEntry key pk rel e s).1 ++ genSqlAddVerbFlags pk rel e,
      i.target ≠ .relWordFact := by
  refine genSqlAddEntry_forall ?_ ?_ ?_ ?_ s
  · simp [Statement.target]
  · simp [Entry.insertSynonym, Statement.target]
  · simp only [Entry.insertEntry, Statement.target]
    split <;> decide
  · simp only [Statement.target]
    split <;> decide

end Freehal.Disk
