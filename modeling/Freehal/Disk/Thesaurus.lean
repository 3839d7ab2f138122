import Freehal.Disk.QueryCache
import Freehal.Universal.SynonymLists

/-!
# Searching for synonyms

`disk_get_thesaurus_synonyms` with the statements that it writes, and `add_synonyms_by_search`,
which puts what is found into a list of synonyms. There is no result where a statement does not fit
into its buffer of 1024 characters.
-/

namespace Freehal.Disk

open Lib (Table)
open Universal (Word joinWords)
open Universal.Negotiating (Synonym forward reverse)
open Universal.SynonymLists

/-! ## The statements -/

/-- What SQLite is free to choose for a statement: the row that a scalar subquery takes, and the
order of the rows. -/
structure Planner where
  first : List Int → Option Int
  mem_first : ∀ ids i, first ids = some i → i ∈ ids
  first_isSome : ∀ ids, ids ≠ [] → (first ids).isSome
  order : List SynonymRow → List SynonymRow
  perm : ∀ rows, (order rows).Perm rows

/-- `sql_select_word` for the name of a column. -/
def sqlSelectWord (column : String) : Str :=
  "(SELECT `word`.`word` FROM `word` where `word`.`id` = ".toList ++ column.toList ++ [')']

/-- The words that do not begin with a blank. -/
def writtenWords (words : List Str) : List Str := words.filter (·.head? ≠ some ' ')

/-- The first word decides whether words are selected at all. -/
def selectsWords (words : List Str) : Bool :=
  match words with
  | [] => false
  | word :: _ => word.head? ≠ some ' '

/-- `sql_get_words` -/
def sqlGetWords (words : List Str) : Str :=
  if selectsWords words then
    "(SELECT `word`.`id` FROM `word` where `word`.`word` IN (".toList ++
      ", ".toList.intercalate ((writtenWords words).map fun word => '"' :: stored word ++ ['"']) ++
      "))".toList
  else "(-1)".toList

/-- The texts around the words. -/
def statementTexts (level : Nat) (back : Bool) : Str × Str × Str :=
  match back, level with
  | true, 1 => (sqlSelectWord "`a_last`", " from synonym as e where `b` IN ".toList, ";".toList)
  | true, 2 => (sqlSelectWord "e.`a_last`",
      (" from synonym as e where `b_last` IN (select u.`a_last` from synonym as u where u.`b` IN " :
        String).toList, ");".toList)
  | true, _ => (sqlSelectWord "e.`a_last`",
      (" from synonym as e where `b_last` IN (select u.`a_last` from synonym as u where " ++
        "u.`b_last` IN (select uu.`a_last` from synonym as uu where uu.`b` = ").toList,
      ");)".toList)
  | false, 1 => (sqlSelectWord "`b_last`", " from synonym as e where `a` = ".toList, ";".toList)
  | false, 2 => (sqlSelectWord "e.`b_last`",
      (" from synonym as e where `a_last` IN (select u.`b_last` from synonym as u where u.`a` = " :
        String).toList, ");".toList)
  | false, _ => (sqlSelectWord "e.`b_last`",
      (" from synonym as e where `a_last` IN (select u.`b_last` from synonym as u where " ++
        "u.`a_last` IN (select uu.`b_last` from synonym as uu where uu.`a` = ").toList,
      ");)".toList)

/-- The statement for some keys, of which the first one is written once more. -/
def thesaurusStatement (key : Str) (keys : List Str) (level : Nat) (back : Bool) : Str :=
  let texts := statementTexts level back
  "select ".toList ++ texts.1 ++ ", \"".toList ++ key ++ ['"'] ++ texts.2.1 ++ sqlGetWords keys ++
    texts.2.2

/-! ## What they select -/

/-- The value of a column of a synonym, by its name. -/
def SynonymRow.column (outer : SynonymRow) (text : Str) : Option (Option Int) :=
  if isName ["a"] text then some outer.a
  else if isName ["a_last"] text then some outer.aLast
  else if isName ["b"] text then some outer.b
  else if isName ["b_last"] text then some outer.bLast
  else if isName ["fileid"] text then some (some outer.fileid)
  else if isName ["line"] text then some (some outer.line)
  else none

/-- Inside of a query on the synonyms, their columns are visible too. -/
def WordRow.isBehind (outer : SynonymRow) (row : WordRow) (text : Str) : Bool :=
  match outer.column text with
  | some value => some row.word = value.map Lib.signed
  | none => row.is text

/-- The texts in `sql_get_words`, nothing for the literal -1. -/
def selectedTexts (words : List Str) : Except SqlError (Option (List Str)) :=
  if selectsWords words then do
    return some (← (writtenWords words).mapM fun word => literal (stored word))
  else .ok none

/-- The ids in `sql_get_words`, seen from a row of the query around it. -/
def Database.wordIds (db : Database) (texts : Option (List Str)) (outer : SynonymRow) : List Int :=
  match texts with
  | some texts => (db.word.rows.filter fun row => texts.any (row.isBehind outer)).map (·.id)
  | none => [-1]

/-- `column IN (...)`, where a NULL equals nothing. -/
def isAmong (column : Option Int) (columns : List (Option Int)) : Bool :=
  column.isSome && columns.contains column

/-- The rows that the words lead to. -/
def Database.firstRows (db : Database) (planner : Planner) (texts : Option (List Str))
    (back : Bool) : List SynonymRow :=
  db.synonym.rows.filter fun u =>
    if back then isAmong u.b ((db.wordIds texts u).map some)
    else isAmong u.a [planner.first (db.wordIds texts u)]

/-- The rows that other rows lead to. -/
def Database.nextRows (db : Database) (rows : List SynonymRow) (back : Bool) : List SynonymRow :=
  db.synonym.rows.filter fun e =>
    if back then isAmong e.bLast (rows.map (·.aLast)) else isAmong e.aLast (rows.map (·.bLast))

/-- The rows for a level. In the text for the third one a bracket is missing. -/
def Database.thesaurusRows (db : Database) (planner : Planner) (texts : Option (List Str))
    (level : Nat) (back : Bool) : Except SqlError (List SynonymRow) :=
  match level with
  | 1 => .ok (db.firstRows planner texts back)
  | 2 => .ok (db.nextRows (db.firstRows planner texts back) back)
  | _ => .error .other

/-- The first column of the result. -/
def Database.thesaurusTexts (db : Database) (planner : Planner) (key : Str) (keys : List Str)
    (level : Nat) (back : Bool) : Except SqlError (List Str) := do
  let _ ← literal key
  let texts ← selectedTexts keys
  let rows ← db.thesaurusRows planner texts level back
  return (planner.order rows).map fun e =>
    (db.wordText (if back then e.aLast else e.bLast)).getD []

/-- The loop of the callback over the result, which gives up at the limit. There is no text for a
first key that is a null pointer. -/
def Database.thesaurusSynonyms (db : Database) (plan : Str → Planner) (keys : List Str)
    (limit level : Nat) (back : Bool) : Option (List Str) :=
  match keys with
  | [] => none
  | key :: _ =>
      let statement := thesaurusStatement key keys level back
      if statement.length < 1024 then
        match db.thesaurusTexts (plan statement) key keys level back with
        | .ok texts => some (texts.take limit)
        | .error _ => some []
      else none

/-- `disk_get_thesaurus_synonyms` with a new array: the members `subjects` of the pairs. -/
def diskGetThesaurusSynonyms (db : Database) (plan : Str → Planner) (key : Option Str)
    (keys : Option (List Str)) (limit level : Nat) (back : Bool) : Option (List Str) :=
  match keys with
  | some keys => db.thesaurusSynonyms plan keys limit level back
  | none =>
      if key.getD [] = [] then some []
      else db.thesaurusSynonyms plan [key.getD []] limit level back

/-! ## Adding what is found -/

def canBeAMainSynonym (word : Str) : Bool :=
  ["ich", "du", "_ich_", "_du_"].all fun other => word ≠ other.toList

/-- The loop of `synonyms_to_expressions` over the positions from `u` on. -/
def expressionsFrom (list : SynonymList) : Nat → Nat → Option (List Str)
  | 0, _ => some []
  | n + 1, u => do
      let syn ← list.synonyms.read u
      let entities ← expressionsFrom list n (u + 1)
      return (syn.map fun syn => joinWords syn.words).toList ++ entities

def synonymsToExpressions (list : SynonymList) (a b : Nat) : Option (List Str) :=
  expressionsFrom list (b - a) a

/-- The loop over the facts that were found. -/
def putFound (level direction : Int) (list : SynonymList) (found : List Str) :
    Option SynonymList :=
  found.foldlM (fun list subjects => putSynonym list ⟨divideWords subjects, level, direction⟩) list

section

variable (getThesaurusSynonyms : Option Str → Option (List Str) → Nat → Nat → Bool →
  Option (List Str))

def searchLimit : Nat := 20000

/-- One of the three levels, for the expressions from `a` to `b`. -/
def searchLevel (level a b : Nat) (list : SynonymList) : Option SynonymList :=
  if 0 < b - a then do
    let exps ← synonymsToExpressions list a b
    let found ← getThesaurusSynonyms none (some exps) searchLimit level false
    putFound level forward list found
  else some list

/-- A further level, while the last one found few synonyms. -/
def searchFurther (level a b : Nat) (list : SynonymList) : Option SynonymList :=
  if b - a < 39 then searchLevel getThesaurusSynonyms level a b list else some list

/-- The search back, for some lists only. -/
def searchBack (category exp : Str) (list : SynonymList) : Option SynonymList :=
  if category = "extra".toList ∨ category = "adverbs-parts".toList then do
    let found ← getThesaurusSynonyms (some exp) none searchLimit 2 true
    putFound 2 reverse list found
  else some list

/-- A round of the loop over the expressions. -/
def searchFor (category exp : Str) (list : SynonymList) : Option SynonymList :=
  if canBeAMainSynonym exp then do
    let begin₁ := list.position
    let list ← searchLevel getThesaurusSynonyms 1 0 begin₁ list
    let begin₂ := list.position
    let list ← searchFurther getThesaurusSynonyms 2 begin₁ begin₂ list
    let begin₃ := list.position
    let list ← searchFurther getThesaurusSynonyms 3 begin₂ begin₃ list
    searchBack getThesaurusSynonyms category exp list
  else some list

def addSynonymsBySearch (exps : List Str) (category : Str) (list : SynonymList) :
    Option SynonymList :=
  exps.foldlM (fun list exp => searchFor getThesaurusSynonyms category exp list) list

/-! ## What is added -/

variable {getThesaurusSynonyms} {P : Synonym → Prop} {entries : List Synonym}
  {list list' : SynonymList}

/-- The list holds the synonyms that were there, and new ones with a property behind them. -/
def Extends (P : Synonym → Prop) (entries : List Synonym) (list' : SynonymList) : Prop :=
  ∃ new, Universal.SynonymLists.Holds list' (entries ++ new) ∧
    (Apart entries → Apart (entries ++ new)) ∧ ∀ syn ∈ new, P syn

theorem Extends.refl (h : Universal.SynonymLists.Holds list entries) : Extends P entries list :=
  ⟨[], by rwa [List.append_nil], by rw [List.append_nil]; exact id, fun _ hsyn => (by cases hsyn)⟩

theorem Extends.of_append {new : List Synonym} (h : Extends P (entries ++ new) list')
    (hapart : Apart entries → Apart (entries ++ new)) (hnew : ∀ syn ∈ new, P syn) :
    Extends P entries list' := by
  obtain ⟨more, hholds, hapart', hmore⟩ := h
  refine ⟨new ++ more, by rwa [← List.append_assoc], fun h => ?_, fun syn hsyn => ?_⟩
  · rw [← List.append_assoc]
    exact hapart' (hapart h)
  · exact (List.mem_append.mp hsyn).elim (hnew syn) (hmore syn)

theorem Extends.bind (h : Extends P entries list) (hP : ∀ syn ∈ entries, P syn)
    (hnext : ∀ entries', Universal.SynonymLists.Holds list entries' →
      (∀ syn ∈ entries', P syn) → Extends P entries' list') : Extends P entries list' := by
  obtain ⟨new, hholds, hapart, hnew⟩ := h
  have hall : ∀ syn ∈ entries ++ new, P syn := fun syn hsyn =>
    (List.mem_append.mp hsyn).elim (hP syn) (hnew syn)
  exact (hnext _ hholds hall).of_append hapart hnew

/-- A synonym is put behind the others, or not at all. -/
theorem offer_eq (entries : List Synonym) (syn : Synonym) :
    offer entries syn = entries ∨ offer entries syn = entries ++ [syn] := by
  unfold offer
  split
  · exact Or.inl rfl
  · split
    · exact Or.inl rfl
    · exact Or.inr rfl

theorem putFound_extends {level direction : Int} {found : List Str}
    (h : Universal.SynonymLists.Holds list entries)
    (hfound : ∀ text ∈ found, P ⟨divideWords text, level, direction⟩) :
    ∃ list', putFound level direction list found = some list' ∧ Extends P entries list' := by
  induction found generalizing list entries with
  | nil => exact ⟨list, rfl, Extends.refl h⟩
  | cons text found ih =>
      obtain ⟨list₁, hput, hholds⟩ := h.putSynonym ⟨divideWords text, level, direction⟩
      obtain ⟨list', hrun, hext⟩ := ih hholds fun text h => hfound text (by simp [h])
      refine ⟨list', by rw [putFound, List.foldlM_cons, hput]; exact hrun, ?_⟩
      rcases offer_eq entries ⟨divideWords text, level, direction⟩ with heq | heq
      · rwa [heq] at hext
      · rw [heq] at hext
        refine hext.of_append (fun h => heq ▸ h.offer _) fun syn hsyn => ?_
        rw [List.mem_singleton.mp hsyn]
        exact hfound text (by simp)

/-- What the engine finds for the words of synonyms with a property, and for the expressions, has
the property. -/
structure FindsOnly (getThesaurusSynonyms : Option Str → Option (List Str) → Nat → Nat → Bool →
    Option (List Str)) (P : Synonym → Prop) (exps : List Str) (category : Str) : Prop where
  ahead : ∀ keys level found, (∀ key ∈ keys, ∃ syn, P syn ∧ key = joinWords syn.words) →
    getThesaurusSynonyms none (some keys) searchLimit level false = some found →
      ∀ text ∈ found, P ⟨divideWords text, level, forward⟩
  back : ∀ exp ∈ exps, ∀ found,
    category = "extra".toList ∨ category = "adverbs-parts".toList →
      getThesaurusSynonyms (some exp) none searchLimit 2 true = some found →
        ∀ text ∈ found, P ⟨divideWords text, 2, reverse⟩

variable {exps : List Str} {category : Str}

theorem expressionsFrom_mem (h : Universal.SynonymLists.Holds list entries) {n u : Nat}
    {keys : List Str} (hkeys : expressionsFrom list n u = some keys) :
    ∀ key ∈ keys, ∃ syn ∈ entries, key = joinWords syn.words := by
  induction n generalizing u keys with
  | zero => cases hkeys; simp
  | succ n ih =>
      obtain ⟨syn, hread, hkeys⟩ := Option.bind_eq_some_iff.mp hkeys
      obtain ⟨rest, hrest, hkeys⟩ := Option.bind_eq_some_iff.mp hkeys
      cases hkeys
      intro key hkey
      rcases List.mem_append.mp hkey with hkey | hkey
      · simp only [Option.mem_toList, Option.map_eq_some_iff] at hkey
        obtain ⟨syn, rfl, rfl⟩ := hkey
        exact ⟨syn, h.mem_of_read hread, rfl⟩
      · exact ih hrest key hkey

theorem searchLevel_extends (hfinds : FindsOnly getThesaurusSynonyms P exps category)
    {level a b : Nat} (h : Universal.SynonymLists.Holds list entries) (hP : ∀ syn ∈ entries, P syn)
    (hsearch : searchLevel getThesaurusSynonyms level a b list = some list') :
    Extends P entries list' := by
  unfold searchLevel at hsearch
  split at hsearch
  · obtain ⟨keys, hkeys, hsearch⟩ := Option.bind_eq_some_iff.mp hsearch
    obtain ⟨found, hfound, hsearch⟩ := Option.bind_eq_some_iff.mp hsearch
    have htexts := hfinds.ahead keys level found (fun key hkey => by
      obtain ⟨syn, hsyn, rfl⟩ := expressionsFrom_mem h hkeys key hkey
      exact ⟨syn, hP syn hsyn, rfl⟩) hfound
    obtain ⟨list₁, hput, hext⟩ := putFound_extends h htexts
    cases hput.symm.trans hsearch
    exact hext
  · cases hsearch
    exact Extends.refl h

theorem searchBack_extends (hfinds : FindsOnly getThesaurusSynonyms P exps category) {exp : Str}
    (hexp : exp ∈ exps) (h : Universal.SynonymLists.Holds list entries)
    (hsearch : searchBack getThesaurusSynonyms category exp list = some list') :
    Extends P entries list' := by
  unfold searchBack at hsearch
  split at hsearch
  · rename_i hcategory
    obtain ⟨found, hfound, hsearch⟩ := Option.bind_eq_some_iff.mp hsearch
    obtain ⟨list₁, hput, hext⟩ := putFound_extends h (hfinds.back exp hexp found hcategory hfound)
    cases hput.symm.trans hsearch
    exact hext
  · cases hsearch
    exact Extends.refl h

theorem searchFurther_extends (hfinds : FindsOnly getThesaurusSynonyms P exps category)
    {level a b : Nat} (h : Universal.SynonymLists.Holds list entries) (hP : ∀ syn ∈ entries, P syn)
    (hsearch : searchFurther getThesaurusSynonyms level a b list = some list') :
    Extends P entries list' := by
  unfold searchFurther at hsearch
  split at hsearch
  · exact searchLevel_extends hfinds h hP hsearch
  · cases hsearch
    exact Extends.refl h

theorem searchFor_extends (hfinds : FindsOnly getThesaurusSynonyms P exps category) {exp : Str}
    (hexp : exp ∈ exps) (h : Universal.SynonymLists.Holds list entries)
    (hP : ∀ syn ∈ entries, P syn)
    (hsearch : searchFor getThesaurusSynonyms category exp list = some list') :
    Extends P entries list' := by
  unfold searchFor at hsearch
  split at hsearch
  · obtain ⟨list₁, h₁, hsearch⟩ := Option.bind_eq_some_iff.mp hsearch
    obtain ⟨list₂, h₂, hsearch⟩ := Option.bind_eq_some_iff.mp hsearch
    obtain ⟨list₃, h₃, hsearch⟩ := Option.bind_eq_some_iff.mp hsearch
    refine (searchLevel_extends hfinds h hP h₁).bind hP fun entries₁ hholds₁ hP₁ => ?_
    refine (searchFurther_extends hfinds hholds₁ hP₁ h₂).bind hP₁ fun entries₂ hholds₂ hP₂ => ?_
    refine (searchFurther_extends hfinds hholds₂ hP₂ h₃).bind hP₂ fun entries₃ hholds₃ _ => ?_
    exact searchBack_extends hfinds hexp hholds₃ hsearch
  · cases hsearch
    exact Extends.refl h

/-- The loop over the expressions, round by round. -/
theorem addSynonymsBySearch_extends (hfinds : FindsOnly getThesaurusSynonyms P exps category)
    {rest : List Str} (hrest : ∀ exp ∈ rest, exp ∈ exps)
    (h : Universal.SynonymLists.Holds list entries) (hP : ∀ syn ∈ entries, P syn)
    (hsearch : addSynonymsBySearch getThesaurusSynonyms rest category list = some list') :
    Extends P entries list' := by
  induction rest generalizing list entries with
  | nil =>
      cases hsearch
      exact Extends.refl h
  | cons exp rest ih =>
      rw [addSynonymsBySearch, List.foldlM_cons] at hsearch
      obtain ⟨list₁, hround, hsearch⟩ := Option.bind_eq_some_iff.mp hsearch
      refine (searchFor_extends hfinds (hrest exp (by simp)) h hP hround).bind hP ?_
      intro entries₁ hholds₁ hP₁
      exact ih (fun exp hexp => hrest exp (by simp [hexp])) hholds₁ hP₁ hsearch

end

end Freehal.Disk
