import Freehal.Disk.Lemmas.Index
import Freehal.Disk.Lemmas.Reporting
import Freehal.Disk.Lemmas.Sources

/-!
# Theorems about the disk engine

What was stored can be read back.
-/

namespace Freehal.Disk

open Lib (Table run Meets)
open Universal (Config Group)

variable {cfg : Config}

/-! ## Words -/

/-- The words that an operation passes to `sql_set_word`. -/
def Entry.passed (cfg : Config) (e : Entry) : List Str := e.setWords ++ e.indexWords cfg

/-- The first word of a process gets an id that is in use already. It is there afterwards only if
it was there, or is set once more. -/
def FirstHeld (s : State) (e : Entry) : Prop :=
  -1 < s.cacheWordid ∨ Holds s.db.word e.subjects
    ∨ ∃ w ∈ e.setWords.tail, stored w = stored e.subjects

/-- The condition on an operation. -/
def Readably (cfg : Config) (s : State) (op : Operation) : Prop :=
  ∀ env rel e, op.added = some (env, rel, e) →
    env.first = none ∧ env.second = none ∧ WordsSet cfg env s e
      ∧ (∀ w ∈ e.texts, NoColumn w) ∧ FirstHeld s e

/-- In the later state `final`, what the operation stored in `s` can be read back. -/
def ReadBack (cfg : Config) (s : State) (op : Operation) (final : State) : Prop :=
  ∀ env rel e, op.added = some (env, rel, e) →
    (∀ w ∈ e.passed cfg, Holds final.db.word w)
      ∧ NewRefer final.db.word e s.db (step cfg s op).db

theorem addEntry_readBack {env : Environment} (rel : Int) {e : Entry} {s : State} (h : Counted s)
    (hfirst : env.first = none) (hsecond : env.second = none) (hw : WordsSet cfg env s e)
    (hcolumns : ∀ w ∈ e.texts, NoColumn w) (hheld : FirstHeld s e) :
    (∀ w ∈ e.passed cfg, Holds (addEntry cfg env rel e s).2.db.word w)
      ∧ NewRefer (addEntry cfg env rel e s).2.db.word e s.db (addEntry cfg env rel e s).2.db := by
  have p := parts cfg env rel e s
  obtain ⟨script, words, hscript, hset⟩ := p.setsWords h hw
  obtain ⟨words', index, _, hdb, hprefix, hindexed, _⟩ := p.indexes h hw hsecond
  have hkey : (getLastPk env.key rel s).2.cacheWordid = s.cacheWordid :=
    getLastPk_cacheWordid _ _ _
  have hkeydb : (getLastPk env.key rel s).2.db = s.db := getLastPk_db _ _ _
  have hwords : ∀ w ∈ e.setWords, Holds words w := by
    intro w hmem
    rcases List.mem_cons.mp (show w ∈ e.subjects :: e.setWords.tail from hmem) with rfl | hmem
    · rcases hheld with hwarm | hheld | ⟨v, hv, hstored⟩
      · exact hset.first (Or.inl (hkey ▸ hwarm))
      · exact hset.first (Or.inr (hkeydb ▸ hheld))
      · obtain ⟨id, hid⟩ := hset.holds v hv
        exact ⟨id, hstored ▸ hid⟩
    · exact hset.holds w hmem
  -- the first script goes on behind its words with the tables as they were
  have hdb₂ := p.db₂
  rw [hfirst, hscript, List.append_assoc, List.append_assoc, p.db₁,
    Lib.runScript_append (hkeydb ▸ hset.run)] at hdb₂
  have hrest := runScript_newRefer e (s.nextKey env.key rel) rel none
    { s.db with word := words } fun w hmem =>
      ⟨hw.settable w (List.mem_append_left _ (texts_subset_setWords e w hmem)), hcolumns w hmem,
        hwords w (texts_subset_setWords e w hmem)⟩
  rw [List.append_assoc, ← hdb₂] at hrest
  obtain ⟨hword, hfacts, hclauses⟩ := hrest
  rw [hword] at hprefix
  rw [hdb]
  refine ⟨fun w hmem => ?_, fun row hrow => ?_, fun row hrow => ?_⟩
  · rcases List.mem_append.mp hmem with hmem | hmem
    · exact (hwords w hmem).mono hprefix
    · exact hindexed w hmem
  · exact (hfacts row hrow).imp id fun hr => hr.mono hprefix
  · exact (hclauses row hrow).imp id fun hr => hr.mono hprefix

def german : Config := ⟨false, "de".toList⟩

def quiet : Environment := ⟨0, none, none⟩

def noFlags : VerbFlags := ⟨false, false, false, false, false⟩

def isEntry (subjects objects line : String) : Entry where
  subjects := subjects.toList
  objects := objects.toList
  verbs := "ist".toList
  adverbs := []
  questionword := []
  filename := "a.pro".toList
  line := line.toList
  truth := "1.000000".toList
  flags := noFlags
  onlyLogic := false
  hasConditionalQuestionword := false

variable (glob : Str → Str → Bool)

/-- A search selects the stored facts whose own words hold a searched word, and no others. -/
def SearchExact (cfg : Config) (t : Traced) (words : List Group) : Prop :=
  ∀ row, row ∈ selectedFacts glob cfg t.state.db words ↔ ∃ e, (row, e) ∈ t.origin
    ∧ ∃ w ∈ requested words, isSkipped cfg w.name = false
      ∧ ∃ own ∈ e.ownWords cfg, finds glob w.name own = true

def clauseHistory : List Operation :=
  [.addFact quiet (isEntry "hund" "tier" "1"), .addClause quiet 1 (isEntry "katze" "maus" "1")]

def searched (word : String) : List Group := [some [some ⟨word.toList⟩]]

/-- Either the fact is there as a whole and its key is returned, or nothing happened. -/
def AllOrNothing (cfg : Config) (env : Environment) (e : Entry) (s : State) : Prop :=
  let r := diskAddFact cfg env e s
  (∃ pk, r.1 = some pk ∧ Present cfg e pk s.db r.2.db)
    ∨ r.1 = none ∧ r.2.db.facts = s.db.facts ∧ r.2.db.relFactFlag = s.db.relFactFlag
      ∧ r.2.db.relWordFact = s.db.relWordFact

theorem allOrNothing_rejected {env : Environment} {e : Entry} {s : State}
    (h : e.isRejected = true) : AllOrNothing cfg env e s := by
  simp only [AllOrNothing, diskAddFact_rejected h]
  exact Or.inr ⟨trivial, trivial, trivial, trivial⟩

theorem allOrNothing_added {env : Environment} {e : Entry} {s : State}
    (h : e.isRejected = false) : AllOrNothing cfg env e s
      ↔ Present cfg e (s.nextKey env.key 0) s.db (addEntry cfg env 0 e s).2.db := by
  simp only [AllOrNothing, diskAddFact_added h]
  constructor
  · intro hall
    rcases hall with ⟨pk, hpk, hpresent⟩ | ⟨hnone, _⟩
    · cases hpk; exact hpresent
    · cases hnone
  · intro hpresent
    exact Or.inl ⟨_, rfl, hpresent⟩

/-- A row that was added from the file is stored. -/
def Library.Stores (l : Library) (filename : Str) : Prop :=
  (∃ p ∈ l.facts, p.2 = filename) ∨ (∃ p ∈ l.clauses, p.2 = filename)
    ∨ ∃ p ∈ l.synonyms, p.2 = filename

/-- Deleting everything from one file removes its rows and spares the others, and the source of a
fact is the file that it was added from. -/
structure SourcesKept (cfg : Config) (l : Library) : Prop where
  spares : ∀ f, l.Stores f →
    let l' := Library.step cfg l (.operation (.deleteEverythingFrom f))
    (∀ p ∈ l.facts, p ∈ l'.facts ↔ p.2 ≠ f) ∧ (∀ p ∈ l.clauses, p ∈ l'.clauses ↔ p.2 ≠ f)
      ∧ ∀ p ∈ l.synonyms, p ∈ l'.synonyms ↔ p.2 ≠ f
  source : ∀ p ∈ l.facts, diskGetSource l.state.db l.files (Lib.signed p.1.id)
    = p.2 ++ ':' :: Lib.signed p.1.line

theorem Library.Numbered.mem_delete (cfg : Config) {l : Library} (h : l.Numbered) (f : Str) :
    let l' := Library.step cfg l (.operation (.deleteEverythingFrom f))
    (∀ p ∈ l.facts, p ∈ l'.facts ↔ fileid p.2 ≠ fileid f)
      ∧ (∀ p ∈ l.clauses, p ∈ l'.clauses ↔ fileid p.2 ≠ fileid f)
      ∧ ∀ p ∈ l.synonyms, p ∈ l'.synonyms ↔ fileid p.2 ≠ fileid f := by
  simp only [Library.step, Disk.step, diskDeleteEverythingFrom_db, Table.rows_delete]
  refine ⟨fun p hp => ?_, fun p hp => ?_, fun p hp => ?_⟩
  · rw [h.facts.mem_delete, and_iff_right hp]
  · rw [h.clauses.mem_delete, and_iff_right hp]
  · rw [h.synonyms.mem_delete, and_iff_right hp]

/-- This holds exactly where the names of the files of the stored rows have different numbers, and
the name of the file of each fact was the first one with its number in `files`. -/
theorem sources_kept (ops : List FileOperation) :
    SourcesKept cfg (run (Library.step cfg) Library.fresh ops)
      ↔ (∀ f g, (run (Library.step cfg) Library.fresh ops).Stores f →
          (run (Library.step cfg) Library.fresh ops).Stores g → fileid f = fileid g → f = g)
        ∧ ∀ p ∈ (run (Library.step cfg) Library.fresh ops).facts,
          firstNamed ops (fileid p.2) = some p.2 := by
  have hnumbered := numbered_run cfg ops
  have hlists := lists_run cfg ops
  generalize run (Library.step cfg) Library.fresh ops = l at hnumbered hlists
  have hsource : ∀ p ∈ l.facts, diskGetSource l.state.db l.files (Lib.signed p.1.id)
      = (firstNamed ops (fileid p.2)).elim [] (· ++ ':' :: Lib.signed p.1.line) := by
    intro p hp
    rw [diskGetSource_eq hlists (hnumbered.facts.stored p hp), hnumbered.facts.number p hp]
    unfold firstNamed
    generalize (ops.filterMap FileOperation.registered).find? (fileid · = fileid p.2) = found
    cases found <;> rfl
  constructor
  · intro h
    constructor
    · intro f g hf hg heq
      obtain ⟨hfacts, hclauses, hsynonyms⟩ := h.spares f hf
      obtain ⟨hfacts', hclauses', hsynonyms'⟩ := hnumbered.mem_delete cfg f
      rcases hg with ⟨p, hp, rfl⟩ | ⟨p, hp, rfl⟩ | ⟨p, hp, rfl⟩
      · have hiff := (hfacts p hp).symm.trans (hfacts' p hp)
        exact (not_not.mp fun hne => hiff.mp (Ne.symm hne) heq.symm)
      · have hiff := (hclauses p hp).symm.trans (hclauses' p hp)
        exact (not_not.mp fun hne => hiff.mp (Ne.symm hne) heq.symm)
      · have hiff := (hsynonyms p hp).symm.trans (hsynonyms' p hp)
        exact (not_not.mp fun hne => hiff.mp (Ne.symm hne) heq.symm)
    · intro p hp
      have hp' := (hsource p hp).symm.trans (h.source p hp)
      cases hname : firstNamed ops (fileid p.2) with
      | none => simp [hname] at hp'
      | some name =>
          rw [hname, Option.elim_some] at hp'
          exact congrArg some (List.append_cancel_right hp')
  · intro h
    obtain ⟨hdiffer, hfirst⟩ := h
    constructor
    · intro f hf
      obtain ⟨hfacts, hclauses, hsynonyms⟩ := hnumbered.mem_delete cfg f
      have hiff : ∀ g, l.Stores g → (fileid g ≠ fileid f ↔ g ≠ f) := fun g hg =>
        ⟨fun hne heq => hne (heq ▸ rfl), fun hne heq => hne (hdiffer g f hg hf heq)⟩
      exact ⟨fun p hp => (hfacts p hp).trans (hiff _ (Or.inl ⟨p, hp, rfl⟩)),
        fun p hp => (hclauses p hp).trans (hiff _ (Or.inr (Or.inl ⟨p, hp, rfl⟩))),
        fun p hp => (hsynonyms p hp).trans (hiff _ (Or.inr (Or.inr ⟨p, hp, rfl⟩)))⟩
    · intro p hp
      rw [hsource p hp, hfirst p hp, Option.elim_some]

/-! Two names of the same characters. -/

def entryFrom (filename : String) (e : Entry) : Entry := { e with filename := filename.toList }

def sameCharacters : List FileOperation :=
  [.addFilename "ab.xml".toList,
    .operation (.addFact quiet (entryFrom "ab.xml" (isEntry "hund" "tier" "1"))),
    .addFilename "ba.xml".toList,
    .operation (.addFact quiet (entryFrom "ba.xml" (isEntry "katze" "tier" "1")))]

/-- Deleting everything from the one deletes everything from the other. -/
theorem sources_confused :
    ¬ SourcesKept german (run (Library.step german) Library.fresh sameCharacters) := by
  intro h
  have hrow : ∃ p ∈ (run (Library.step german) Library.fresh sameCharacters).facts,
      p.2 = "ab.xml".toList ∧ ∃ q ∈ (run (Library.step german) Library.fresh sameCharacters).facts,
        q.2 = "ba.xml".toList ∧ q ∉ (Library.step german
          (run (Library.step german) Library.fresh sameCharacters)
          (.operation (.deleteEverythingFrom "ab.xml".toList))).facts := by decide +kernel
  obtain ⟨p, hp, hname, q, hq, hother, hgone⟩ := hrow
  have hspares := (h.spares "ab.xml".toList (Or.inl ⟨p, hp, hname⟩)).1 q hq
  exact hgone (hspares.mpr (by rw [hother]; decide))

end Freehal.Disk
