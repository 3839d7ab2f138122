import Freehal.Disk.Lemmas.Search
import Freehal.Disk.Lemmas.Sources
import Freehal.Disk.Thesaurus

/-!
# Where synonyms come from

Which facts a history has taught as synonyms, and that a search for synonyms finds nothing that
does not follow from them.
-/

namespace Freehal.Disk

open Lib (Table bind_eq_ok run)
open Universal (Config joinWords)
open Universal.Negotiating (Synonym forward reverse)
open Universal.SynonymLists (Apart SynonymList holds_prepareSynonyms prepareSynonyms putSynonym)

/-! ## What was taught -/

/-- The facts in the table of synonyms. Deleting a file forgets all facts from files with its
number; deleting a record forgets none. -/
def teach (taught : List Entry) (op : Operation) : List Entry :=
  match op.added with
  | some (_, rel, e) => if e.isSynonym rel then taught ++ [e] else taught
  | none =>
      match op with
      | .deleteEverythingFrom filename => taught.filter fun e => fileid e.filename ≠ fileid filename
      | _ => taught

/-- The names of the columns that a search for synonyms sees besides those of the words. -/
def synonymNames : List String := ["a", "a_last", "b", "b_last", "fileid", "line"]

/-- The text is looked up as itself: it does not begin with a blank and is no name of a column. -/
def LookedUp (text : Str) : Prop :=
  text.head? ≠ some ' ' ∧ NoColumn text ∧ isName synonymNames (stored text) = false

instance (text : Str) : Decidable (LookedUp text) := inferInstanceAs (Decidable (_ ∧ _ ∧ _))

/-- Two texts that are looked up as one word. -/
def Alike (x y : Str) : Prop := LookedUp x → LookedUp y → stored x = stored y

/-- What is shown for a text: itself, or nothing where its word could not be set. -/
def ShownAs (x text : Str) : Prop := LookedUp x → text = stored x ∨ text = []

/-- The synonyms that follow from facts. Ahead, a fact leads from its subject to the last word of
its object, and from there to facts whose subject has this word as its last one; back, a fact leads
from its object to the last word of its subject, and from there to facts whose object has this word
as its last one. -/
inductive Follows (facts : List Entry) (exps : List Str) (category : Str) (base : List Synonym) :
    Synonym → Prop
  | listed {syn} : syn ∈ base → Follows facts exps category base syn
  | first {syn f text} : Follows facts exps category base syn → f ∈ facts →
      Alike (joinWords syn.words) f.subjects → ShownAs (lastWord f.objects) text →
      Follows facts exps category base ⟨divideWords text, 1, forward⟩
  | second {syn f g text} : Follows facts exps category base syn → f ∈ facts → g ∈ facts →
      Alike (joinWords syn.words) f.subjects → Alike (lastWord f.objects) (lastWord g.subjects) →
      ShownAs (lastWord g.objects) text →
      Follows facts exps category base ⟨divideWords text, 2, forward⟩
  | back {exp f g text} : exp ∈ exps → f ∈ facts → g ∈ facts →
      category = "extra".toList ∨ category = "adverbs-parts".toList →
      Alike exp f.objects → Alike (lastWord f.subjects) (lastWord g.objects) →
      ShownAs (lastWord g.subjects) text →
      Follows facts exps category base ⟨divideWords text, 2, reverse⟩

/-! ## Rows and facts -/

variable {words words' : Table WordRow.clash} {text x y : Str} {i : Int}

/-- The id of the word that the text is looked up as. -/
def Names (words : Table WordRow.clash) (text : Str) (i : Int) : Prop :=
  LookedUp text → ⟨i, stored text⟩ ∈ words.rows

theorem Names.mono (h : Names words text i) (hp : words.rows <+: words'.rows) :
    Names words' text i := fun hlooked => hp.subset (h hlooked)

theorem Names.alike (hx : Names words x i) (hy : Names words y i) : Alike x y :=
  fun hlx hly => congrArg WordRow.word (eq_of_id (hx hlx) (hy hly) rfl)

theorem names_of_value {db : Database} (h : db.value text = some i) : Names db.word text i := by
  intro hlooked
  rw [Database.value, if_neg hlooked.1] at h
  obtain ⟨row, hfind, rfl⟩ := Option.map_eq_some_iff.mp h
  have hword := List.find?_some hfind
  simp only [WordRow.is, hlooked.2.1.1, hlooked.2.1.2, Bool.false_eq_true, if_false,
    decide_eq_true_eq] at hword
  exact hword ▸ List.mem_of_find?_eq_some hfind

/-- The text for an id that a text names. -/
theorem shownAs_wordText {db : Database} {column : Option Int}
    (h : ∀ i, column = some i → Names db.word text i) :
    ShownAs text ((db.wordText column).getD []) := by
  intro hlooked
  cases column with
  | none => exact Or.inr rfl
  | some i =>
      rw [Database.wordText, Option.bind_some]
      cases hfind : db.word.rows.find? (fun row => decide (row.id = i)) with
      | none => exact Or.inr rfl
      | some row =>
          have hid : row.id = i := by simpa using List.find?_some hfind
          have hrow := eq_of_id (List.mem_of_find?_eq_some hfind) (h i rfl hlooked) hid
          exact Or.inl (congrArg WordRow.word hrow)

/-- The columns of the row hold ids of the words of the fact. -/
structure RowOf (words : Table WordRow.clash) (row : SynonymRow) (e : Entry) : Prop where
  a : ∀ i, row.a = some i → Names words e.subjects i
  aLast : ∀ i, row.aLast = some i → Names words (lastWord e.subjects) i
  b : ∀ i, row.b = some i → Names words e.objects i
  bLast : ∀ i, row.bLast = some i → Names words (lastWord e.objects) i
  fileid : row.fileid = fileid e.filename

theorem RowOf.mono {row : SynonymRow} {e : Entry} (h : RowOf words row e)
    (hp : words.rows <+: words'.rows) : RowOf words' row e where
  a i hi := (h.a i hi).mono hp
  aLast i hi := (h.aLast i hi).mono hp
  b i hi := (h.b i hi).mono hp
  bLast i hi := (h.bLast i hi).mono hp
  fileid := h.fileid

/-- Every synonym comes from one of the facts. -/
def ComesFrom (db : Database) (facts : List Entry) : Prop :=
  ∀ row ∈ db.synonym.rows, ∃ e ∈ facts, RowOf db.word row e

/-! ## Scripts -/

variable {cfg : Config} {env : Environment} {rel : Int} {e : Entry} {s : State}
  {facts facts' : List Entry} {db db' : Database}

theorem ComesFrom.mono (h : ComesFrom db facts) (hfacts : facts ⊆ facts') :
    ComesFrom db facts' := by
  intro row hrow
  obtain ⟨e, he, hof⟩ := h row hrow
  exact ⟨e, hfacts he, hof⟩

/-- The table of synonyms stays as it is, or there is a new row of the fact. -/
theorem exec_insertSynonym_rows (h : e.insertSynonym.exec db = .ok db') :
    db'.word = db.word ∧ ∀ row ∈ db'.synonym.rows, row ∈ db.synonym.rows ∨ RowOf db.word row e := by
  simp only [Entry.insertSynonym, Statement.exec, bind_eq_ok, scalar_eq_ok] at h
  obtain ⟨_, ⟨_, rfl⟩, _, ⟨_, rfl⟩, _, ⟨_, rfl⟩, _, ⟨_, rfl⟩, line, _, h⟩ := h
  cases h
  refine ⟨rfl, fun row hrow => ?_⟩
  rcases Table.mem_insertOrIgnore hrow with hrow | rfl
  · exact Or.inl hrow
  · exact Or.inr ⟨fun _ => names_of_value, fun _ => names_of_value, fun _ => names_of_value,
      fun _ => names_of_value, rfl⟩

/-- Other statements leave the table of synonyms as it is. -/
theorem exec_synonym {i : Statement} (hi : i.target ≠ .synonym) (h : i.exec db = .ok db') :
    db'.synonym = db.synonym := by
  cases i with
  | insertWord id word =>
      obtain ⟨_, _, h⟩ := bind_eq_ok.mp h
      cases h
      rfl
  | insertSynonym a aLast b bLast fileid line => exact absurd rfl hi
  | insertEntry clause id v su o a q p f l r tr ol =>
      simp only [Statement.exec, bind_eq_ok] at h
      obtain ⟨_, _, _, _, _, _, _, _, _, _, _, _, h⟩ := h
      cases clause with
      | true =>
          obtain ⟨t, _, h⟩ := bind_eq_ok.mp h
          cases h
          rfl
      | false =>
          obtain ⟨t, _, h⟩ := bind_eq_ok.mp h
          cases h
          rfl
  | insertFlags clause fact flags =>
      cases clause with
      | true =>
          obtain ⟨t, _, h⟩ := bind_eq_ok.mp h
          cases h
          rfl
      | false =>
          obtain ⟨t, _, h⟩ := bind_eq_ok.mp h
          cases h
          rfl
  | insertIndex word fact table =>
      obtain ⟨_, _, h⟩ := bind_eq_ok.mp h
      cases h
      rfl
  | deleteRecord key =>
      obtain ⟨_, _, h⟩ := bind_eq_ok.mp h
      cases h
      rfl
  | deleteFileid clause fileid =>
      cases clause with
      | true => cases h; rfl
      | false => cases h; rfl
  | deleteSynonyms fileid => exact absurd rfl hi

theorem exec_word_grows {i : Statement} (h : i.exec db = .ok db') :
    db.word.rows <+: db'.word.rows := by
  rcases exec_word h with hw | ⟨id, word, _, hw⟩
  · rw [hw]
  · rw [hw]; exact Table.prefix_insertOrIgnore

/-- The statement writes to other tables only, or the synonym of one of the facts. -/
def Statement.Teaches (facts : List Entry) (i : Statement) : Prop :=
  i.target = .synonym → ∃ e ∈ facts, i = e.insertSynonym

theorem ComesFrom.exec {i : Statement} (h : ComesFrom db facts) (hi : i.Teaches facts)
    (hexec : i.exec db = .ok db') : ComesFrom db' facts := by
  intro row hrow
  by_cases htarget : i.target = .synonym
  · obtain ⟨e, he, rfl⟩ := hi htarget
    obtain ⟨hword, hrows⟩ := exec_insertSynonym_rows hexec
    rw [hword]
    exact (hrows row hrow).elim (h row) fun hof => ⟨e, he, hof⟩
  · rw [exec_synonym htarget hexec] at hrow
    obtain ⟨e, he, hof⟩ := h row hrow
    exact ⟨e, he, hof.mono (exec_word_grows hexec)⟩

theorem ComesFrom.runScript (h : ComesFrom db facts) (interrupt : Option Nat)
    {script : List Statement} (hs : ∀ i ∈ script, i.Teaches facts) :
    ComesFrom (Lib.runScript Statement.exec .other interrupt script db).1 facts := by
  apply Lib.runScript_induction (P := fun db => ComesFrom db facts) h
  intro i hi db₁ db₂ hdb hexec
  exact hdb.exec (hs i hi) hexec

theorem genSqlAddEntry_teaches (key pk : Int) (s : State)
    (he : e.isSynonym rel = true → e ∈ facts) :
    ∀ i ∈ (genSqlAddEntry key pk rel e s).1 ++ genSqlAddVerbFlags pk rel e, i.Teaches facts := by
  have hwords : ∀ i ∈ (e.setWords.mapM (sqlSetWord key) s).1.flatten, i.Teaches facts := by
    refine mapM_forall (fun w _ s => sqlSetWord_forall (fun id htarget => ?_) s) s
    cases htarget
  rw [genSqlAddEntry_eq]
  generalize (e.setWords.mapM (sqlSetWord key) s).1.flatten = words at hwords
  intro i hi
  simp only [genSqlAddVerbFlags, List.mem_append, List.mem_singleton] at hi
  rcases hi with ((hi | hi) | rfl) | rfl
  · exact hwords i hi
  · split at hi
    · rename_i hsynonym
      exact fun _ => ⟨e, he hsynonym, List.mem_singleton.mp hi⟩
    · cases hi
  · intro htarget
    simp only [Entry.insertEntry, Statement.target] at htarget
    split at htarget <;> cases htarget
  · intro htarget
    simp only [Statement.target] at htarget
    split at htarget <;> cases htarget

theorem genSqlAddWordFactRelations_teaches (cfg : Config) (key pk rel : Int) (e : Entry)
    (s : State) : ∀ i ∈ (genSqlAddWordFactRelations cfg key pk rel e s).1, i.Teaches facts := by
  refine genSqlAddWordFactRelations_forall (fun id word htarget => ?_) (fun word htarget => ?_) s
  · cases htarget
  · cases htarget

theorem ComesFrom.addEntry (h : ComesFrom s.db facts)
    (he : e.isSynonym rel = true → e ∈ facts) :
    ComesFrom (Disk.addEntry cfg env rel e s).2.db facts := by
  have p := parts cfg env rel e s
  have hfirst := genSqlAddEntry_teaches env.key (s.nextKey env.key rel)
    (getLastPk env.key rel s).2 he
  have hsecond : ∀ i ∈ (genSqlAddWordFactRelations cfg env.key (s.nextKey env.key rel) rel e
      p.s₂).1, i.Teaches facts := genSqlAddWordFactRelations_teaches cfg env.key _ rel e p.s₂
  rw [p.gen₁] at hfirst
  rw [p.gen₂] at hsecond
  have h₂ : ComesFrom p.s₂.db facts := by
    rw [p.db₂, p.db₁]
    exact h.runScript env.first hfirst
  rw [p.db₄, p.db₃]
  exact h₂.runScript env.second hsecond

/-! ## Histories -/

theorem ComesFrom.delete (h : ComesFrom s.db facts) (filename : Str) :
    ComesFrom (diskDeleteEverythingFrom filename s).2.db
      (facts.filter fun e => fileid e.filename ≠ fileid filename) := by
  rw [diskDeleteEverythingFrom_db]
  intro row hrow
  obtain ⟨hrow, hother⟩ := List.mem_filter.mp hrow
  obtain ⟨e, he, hof⟩ := h row hrow
  have hname : fileid e.filename ≠ fileid filename := by
    rw [← hof.fileid]
    simpa using hother
  exact ⟨e, List.mem_filter.mpr ⟨he, by simpa using hname⟩, hof⟩

/-- What is rejected changes nothing. -/
theorem step_addFact_rejected (h : (Operation.addFact env e).added = none) :
    step cfg s (.addFact env e) = s := by
  simp only [Operation.added] at h
  split at h
  · rename_i hr
    simp only [step, diskAddFact, hr, if_true]
    rfl
  · cases h

theorem step_addClause_rejected (h : (Operation.addClause env rel e).added = none) :
    step cfg s (.addClause env rel e) = s := by
  simp only [Operation.added] at h
  split at h
  · rename_i hr
    simp only [step, diskAddClause, hr, if_true]
    rfl
  · cases h

/-- A record takes no synonym with it. -/
theorem ComesFrom.delRecord (h : ComesFrom s.db facts) (key : Str) :
    ComesFrom (diskDelRecord key s).2.db facts := by
  unfold diskDelRecord
  split
  · exact h
  · have hscript : ∀ i ∈ [Statement.deleteRecord key], i.Teaches facts := by
      simp [Statement.Teaches, Statement.target]
    have hdb := h.runScript none hscript
    rw [← sqlExecute_db] at hdb
    exact hdb

theorem ComesFrom.step (h : ComesFrom s.db facts) (op : Operation) :
    ComesFrom (Disk.step cfg s op).db (teach facts op) := by
  cases ho : op.added with
  | some call =>
      obtain ⟨env, rel, e⟩ := call
      rw [step_added ho]
      simp only [teach, ho]
      split
      · exact (h.mono (List.subset_append_left _ _)).addEntry fun _ => by simp
      · rename_i hno
        exact h.addEntry fun hyes => absurd hyes hno
  | none =>
      simp only [teach, ho]
      cases op with
      | addFact env e =>
          rw [step_addFact_rejected ho]
          exact h
      | addClause env rel e =>
          rw [step_addClause_rejected ho]
          exact h
      | delRecord key => exact h.delRecord key
      | deleteEverythingFrom filename => exact h.delete filename
      | begin_ => exact h
      | restart => exact h

theorem ComesFrom.run (ops : List Operation) (h : ComesFrom s.db facts) :
    ComesFrom (Lib.run (Disk.step cfg) s ops).db (Lib.run teach facts ops) := by
  induction ops generalizing s facts with
  | nil => exact h
  | cons op ops ih => exact ih (h.step op)

/-! ## Searching -/

variable {plan : Str → Planner} {planner : Planner} {texts : Option (List Str)}
  {keys found : List Str} {outer : SynonymRow} {rows : List SynonymRow} {level limit : Nat}
  {back : Bool}

theorem column_of_lookedUp (h : LookedUp text) (outer : SynonymRow) :
    outer.column (stored text) = none := by
  have hnames := h.2.2
  simp only [synonymNames, isName, List.any_cons, List.any_nil, Bool.or_false,
    Bool.or_eq_false_iff] at hnames
  obtain ⟨ha, haLast, hb, hbLast, hfileid, hline⟩ := hnames
  simp only [SynonymRow.column, isName, List.any_cons, List.any_nil, Bool.or_false, ha, haLast, hb,
    hbLast, hfileid, hline, Bool.false_eq_true, if_false]

theorem isAmong_iff {column : Option Int} {columns : List (Option Int)} :
    isAmong column columns = true ↔ ∃ i, column = some i ∧ some i ∈ columns := by
  cases column <;> simp [isAmong]

theorem mem_of_mapM_ok {α β : Type} {f : α → Except SqlError β} {as : List α} {bs : List β}
    (h : as.mapM f = .ok bs) : ∀ b ∈ bs, ∃ a ∈ as, f a = .ok b := by
  induction as generalizing bs with
  | nil => cases h; simp
  | cons a as ih =>
      rw [List.mapM_cons] at h
      obtain ⟨b, hb, h⟩ := bind_eq_ok.mp h
      obtain ⟨rest, hrest, h⟩ := bind_eq_ok.mp h
      cases h
      intro b' hb'
      rcases List.mem_cons.mp hb' with rfl | hb'
      · exact ⟨a, by simp, hb⟩
      · obtain ⟨a', ha', hfa⟩ := ih hrest b' hb'
        exact ⟨a', by simp [ha'], hfa⟩

theorem selectedTexts_mem {texts : List Str} (h : selectedTexts keys = .ok (some texts)) :
    ∀ text ∈ texts, ∃ key ∈ keys, text = stored key := by
  unfold selectedTexts at h
  split at h
  · obtain ⟨texts', hmap, heq⟩ := bind_eq_ok.mp h
    cases heq
    intro text htext
    obtain ⟨key, hkey, hliteral⟩ := mem_of_mapM_ok hmap text htext
    refine ⟨key, List.mem_of_mem_filter hkey, ?_⟩
    unfold literal at hliteral
    split at hliteral
    · cases hliteral
    · cases hliteral
      rfl
  · cases h

/-- The literal -1 stands for a first key that is not looked up. -/
theorem selectedTexts_none (hkeys : keys ≠ []) (h : selectedTexts keys = .ok none) :
    ∃ key ∈ keys, ¬ LookedUp key := by
  unfold selectedTexts at h
  split at h
  · obtain ⟨texts, _, heq⟩ := bind_eq_ok.mp h
    cases heq
  · rename_i hselects
    cases keys with
    | nil => exact absurd rfl hkeys
    | cons key keys =>
        exact ⟨key, by simp, fun hlooked => hselects (by simpa [selectsWords] using hlooked.1)⟩

/-- An id that the keys lead to is the one of a key. -/
theorem names_of_wordIds (hkeys : keys ≠ []) (htexts : selectedTexts keys = .ok texts)
    (hi : i ∈ db.wordIds texts outer) : ∃ key ∈ keys, Names db.word key i := by
  cases texts with
  | none =>
      obtain ⟨key, hkey, hnot⟩ := selectedTexts_none hkeys htexts
      exact ⟨key, hkey, fun hlooked => absurd hlooked hnot⟩
  | some texts =>
      obtain ⟨row, hrow, rfl⟩ := List.mem_map.mp hi
      obtain ⟨hrow, hany⟩ := List.mem_filter.mp hrow
      obtain ⟨text, htext, hbehind⟩ := List.any_eq_true.mp hany
      obtain ⟨key, hkey, rfl⟩ := selectedTexts_mem htexts text htext
      refine ⟨key, hkey, fun hlooked => ?_⟩
      simp only [WordRow.isBehind, column_of_lookedUp hlooked, WordRow.is, hlooked.2.1.1,
        hlooked.2.1.2, Bool.false_eq_true, if_false, decide_eq_true_eq] at hbehind
      exact hbehind ▸ hrow

/-- The text that a search starts from at a fact. -/
def Entry.searched (back : Bool) (f : Entry) : Str := if back then f.objects else f.subjects

/-- The text that it comes to there. -/
def Entry.reached (back : Bool) (f : Entry) : Str := if back then f.subjects else f.objects

theorem firstRows_comeFrom (h : ComesFrom db facts) (hkeys : keys ≠ [])
    (htexts : selectedTexts keys = .ok texts) :
    ∀ u ∈ db.firstRows planner texts back, ∃ f ∈ facts, RowOf db.word u f ∧
      ∃ key ∈ keys, Alike key (f.searched back) := by
  intro u hu
  obtain ⟨hrow, hamong⟩ := List.mem_filter.mp hu
  obtain ⟨f, hf, hof⟩ := h u hrow
  refine ⟨f, hf, hof, ?_⟩
  cases back with
  | true =>
      obtain ⟨i, hcolumn, hi⟩ := isAmong_iff.mp hamong
      obtain ⟨i', hi', heq⟩ := List.mem_map.mp hi
      cases heq
      obtain ⟨key, hkey, hnames⟩ := names_of_wordIds hkeys htexts hi'
      exact ⟨key, hkey, hnames.alike (hof.b i hcolumn)⟩
  | false =>
      obtain ⟨i, hcolumn, hi⟩ := isAmong_iff.mp hamong
      have hfirst := planner.mem_first _ i (List.mem_singleton.mp hi).symm
      obtain ⟨key, hkey, hnames⟩ := names_of_wordIds hkeys htexts hfirst
      exact ⟨key, hkey, hnames.alike (hof.a i hcolumn)⟩

/-- A row of the next level, with the row that led there. -/
theorem nextRows_comeFrom (h : ComesFrom db facts) :
    ∀ r ∈ db.nextRows rows back, ∃ g ∈ facts, RowOf db.word r g ∧ ∃ u ∈ rows, ∀ f,
      RowOf db.word u f → Alike (lastWord (f.reached back)) (lastWord (g.searched back)) := by
  intro r hr
  obtain ⟨hrow, hamong⟩ := List.mem_filter.mp hr
  obtain ⟨g, hg, hof⟩ := h r hrow
  refine ⟨g, hg, hof, ?_⟩
  cases back with
  | true =>
      obtain ⟨i, hcolumn, hi⟩ := isAmong_iff.mp hamong
      obtain ⟨u, hu, hlast⟩ := List.mem_map.mp hi
      exact ⟨u, hu, fun f hf => (hf.aLast i hlast).alike (hof.bLast i hcolumn)⟩
  | false =>
      obtain ⟨i, hcolumn, hi⟩ := isAmong_iff.mp hamong
      obtain ⟨u, hu, hlast⟩ := List.mem_map.mp hi
      exact ⟨u, hu, fun f hf => (hf.bLast i hlast).alike (hof.aLast i hcolumn)⟩

/-- What is found is the text of a row that the statement selects. -/
theorem thesaurusSynonyms_rows (h : db.thesaurusSynonyms plan keys limit level back = some found)
    (htext : text ∈ found) : keys ≠ [] ∧ ∃ planner texts rows, selectedTexts keys = .ok texts ∧
      db.thesaurusRows planner texts level back = .ok rows ∧
        ∃ r ∈ rows, text = (db.wordText (if back then r.aLast else r.bLast)).getD [] := by
  cases keys with
  | nil => cases h
  | cons key keys =>
      simp only [Database.thesaurusSynonyms] at h
      split at h
      · split at h
        · rename_i hok
          cases h
          obtain ⟨_, _, hok⟩ := bind_eq_ok.mp hok
          obtain ⟨texts, htexts, hok⟩ := bind_eq_ok.mp hok
          obtain ⟨rows, hrows, hok⟩ := bind_eq_ok.mp hok
          cases hok
          obtain ⟨r, hr, rfl⟩ := List.mem_map.mp (List.mem_of_mem_take htext)
          exact ⟨by simp, _, texts, rows, htexts, hrows, r,
            (Planner.perm _ rows).mem_iff.mp hr, rfl⟩
        · cases h
          cases htext
      · cases h

theorem RowOf.shownAs {r : SynonymRow} {f : Entry} (hof : RowOf db.word r f) :
    ShownAs (lastWord (f.reached back))
      ((db.wordText (if back then r.aLast else r.bLast)).getD []) := by
  cases back with
  | true => exact shownAs_wordText hof.aLast
  | false => exact shownAs_wordText hof.bLast

/-- Whatever is found, one fact leads there from a key, or two. -/
theorem thesaurusSynonyms_comeFrom (h : ComesFrom db facts)
    (hfound : db.thesaurusSynonyms plan keys limit level back = some found)
    (htext : text ∈ found) : ∃ key ∈ keys, ∃ f ∈ facts, Alike key (f.searched back) ∧
      (level = 1 ∧ ShownAs (lastWord (f.reached back)) text ∨
        level = 2 ∧ ∃ g ∈ facts, Alike (lastWord (f.reached back)) (lastWord (g.searched back)) ∧
          ShownAs (lastWord (g.reached back)) text) := by
  obtain ⟨hkeys, planner, texts, rows, htexts, hrows, r, hr, rfl⟩ :=
    thesaurusSynonyms_rows hfound htext
  have hfirst : ∀ u ∈ db.firstRows planner texts back, ∃ f ∈ facts, RowOf db.word u f ∧
      ∃ key ∈ keys, Alike key (f.searched back) := firstRows_comeFrom h hkeys htexts
  unfold Database.thesaurusRows at hrows
  split at hrows
  · cases hrows
    obtain ⟨f, hf, hof, key, hkey, halike⟩ := hfirst r hr
    exact ⟨key, hkey, f, hf, halike, Or.inl ⟨rfl, hof.shownAs⟩⟩
  · cases hrows
    obtain ⟨g, hg, hofg, u, hu, hnext⟩ := nextRows_comeFrom h r hr
    obtain ⟨f, hf, hoff, key, hkey, halike⟩ := hfirst u hu
    exact ⟨key, hkey, f, hf, halike, Or.inr ⟨rfl, g, hg, hnext f hoff, hofg.shownAs⟩⟩
  · cases hrows

/-- The engine finds only what follows from the facts. -/
theorem findsOnly_follows (h : ComesFrom db facts) (plan : Str → Planner) (exps : List Str)
    (category : Str) (base : List Synonym) :
    FindsOnly (diskGetThesaurusSynonyms db plan) (Follows facts exps category base) exps
      category where
  ahead keys level found hkeys hfound text htext := by
    obtain ⟨key, hkey, f, hf, halike, hlevel⟩ := thesaurusSynonyms_comeFrom h hfound htext
    obtain ⟨syn, hsyn, rfl⟩ := hkeys key hkey
    rcases hlevel with ⟨rfl, hshown⟩ | ⟨rfl, g, hg, hnext, hshown⟩
    · exact .first hsyn hf halike hshown
    · exact .second hsyn hf hg halike hnext hshown
  back exp hexp found hcategory hfound text htext := by
    simp only [diskGetThesaurusSynonyms, Option.getD_some] at hfound
    split at hfound
    · cases hfound
      cases htext
    · obtain ⟨key, hkey, f, hf, halike, hlevel⟩ := thesaurusSynonyms_comeFrom h hfound htext
      rw [List.mem_singleton.mp hkey] at halike
      rcases hlevel with ⟨hone, _⟩ | ⟨_, g, hg, hnext, hshown⟩
      · cases hone
      · exact .back hexp hf hg hcategory halike hnext hshown

def isA (subjects objects line : String) : Entry where
  subjects := subjects.toList
  objects := objects.toList
  verbs := "is-a".toList
  adverbs := []
  questionword := []
  filename := "a.pro".toList
  line := line.toList
  truth := "1.000000".toList
  flags := ⟨false, false, false, false, false⟩
  onlyLogic := false
  hasConditionalQuestionword := false

def dogs : List Operation :=
  [.addFact ⟨0, none, none⟩ (isA "hund" "tier" "1"),
    .addFact ⟨0, none, none⟩ (isA "tier" "wesen" "2"),
    .addFact ⟨0, none, none⟩ (isA "wesen" "ding" "3")]

/-- The first row, and the rows in their order. -/
def firstPlanner : Planner where
  first ids := ids.head?
  mem_first _ _ h := List.mem_of_mem_head? h
  first_isSome ids h := by
    cases ids with
    | nil => exact absurd rfl h
    | cons id ids => rfl
  order rows := rows
  perm rows := List.Perm.refl _

def dog : Synonym := ⟨[⟨"hund".toList⟩], 0, forward⟩

def dogList : SynonymList := (putSynonym prepareSynonyms dog).getD prepareSynonyms

theorem holds_dogList : Universal.SynonymLists.Holds dogList [dog] := by
  obtain ⟨list, hput, hholds⟩ := holds_prepareSynonyms.putSynonym dog
  have hlist : dogList = list := by
    rw [dogList, hput]
    rfl
  rw [hlist]
  exact hholds

end Freehal.Disk
