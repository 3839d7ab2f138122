import Freehal.Talk.FactSource

/-!
# The commands of the server

`hal2012_server_client_connection` of `hal2012-server-thread.cpp`: what happens to one line. It is
split into fields, and the commands are tried one after the other.
-/

namespace Freehal.Hal2012.Dispatcher

open Freehal.Talk (replace)

/-- What ends the server, or has no defined result. -/
inductive Fault where
  | outOfRange
  | overflow
  | unterminated
  deriving DecidableEq

/-- What is done for a line. -/
inductive Action where
  | misplacedHere
  | exit
  | csv (request : Str)
  | deleteFact (pkey : Str)
  | reindex
  | addXmlFile (file : Str)
  | getProfact (pkey : Str)
  | replaceProfact (pkey replacement : Str)
  | statement (input username : Str) (doLearn doTalk : Bool)
  deriving DecidableEq

abbrev Outcome := Except Fault (List Action)

/-- `at` of a vector of fields. -/
def fieldAt (result : List Str) (i : Nat) : Except Fault Str :=
  match result[i]? with
  | some field => .ok field
  | none => .error .outOfRange

/-- Comparisons of the fields from `i` on with these words, joined by `&&`, and what comes behind
them. -/
def ifFields (result : List Str) : Nat → List String → Outcome → Outcome
  | _, [], rest => rest
  | i, word :: words, rest => do
      if (← fieldAt result i) = word.toList then ifFields result (i + 1) words rest else return []

/-- One block and then the next one. -/
def andThen (block rest : Outcome) : Outcome := do return (← block) ++ (← rest)

/-- `c_str`, as the functions of C see it. -/
def cStr (field : Str) : Str := field.takeWhile (· ≠ '\x00')

/-- `strcpy` into `pkey`, which has 4096 characters. -/
def copyPkey (field : Str) : Except Fault Str :=
  if (cStr field).length < 4096 then .ok (cStr field) else .error .overflow

/-- `strncpy` of 2000 characters into a `replacement` that is not cleared before. -/
def copyReplacement (field : Str) : Except Fault Str :=
  if (cStr field).length < 2000 then .ok (cStr field) else .error .unterminated

/-- The loops that take line breaks from the end. -/
def chomp (text : Str) : Str := (text.reverse.dropWhile fun c => c = '\r' || c = '\n').reverse

/-- The fields behind the first one, with their separators. -/
def inputOf (result : List Str) : Str :=
  replace ([':'].intercalate (result.drop 1)) "::".toList ":".toList

/-- The field is neither empty nor a blank and at most one more character. -/
def isInput (field : Str) : Bool :=
  0 < field.length && !(field.length < 3 && field.head? = some ' ')

/-! ## The blocks -/

def here (line : Str) (result : List Str) : Outcome := do
  if (← fieldAt (line.splitOn '_') 0) = "HERE".toList ∧ 2 ≤ result.length then
    return [.misplacedHere]
  else return []

def csv (result : List Str) : Outcome :=
  ifFields result 0 ["CSV"] do return [.csv (cStr (← fieldAt result 1))]

def deleteFact (result : List Str) : Outcome :=
  ifFields result 0 ["DELETE", "FACT", "PK"] do
    return [.deleteFact (← copyPkey (← fieldAt result 3))]

def reindex (result : List Str) : Outcome := ifFields result 0 ["REINDEX"] (.ok [.reindex])

/-- `READ:XML` and `LIST:XML`. -/
def addXmlFile (command : String) (result : List Str) : Outcome :=
  ifFields result 0 [command, "XML"] do
    return [.addXmlFile (← fieldAt result 2)]

def getProfact (result : List Str) : Outcome :=
  ifFields result 0 ["GET", "PROFACT", "PK"] do
    return [.getProfact (chomp (← copyPkey (← fieldAt result 3)))]

def replaceProfact (result : List Str) : Outcome :=
  ifFields result 0 ["REPLACE", "PROFACT", "PK"] do
    let pkey ← copyPkey (← fieldAt result 3)
    let replacement ← copyReplacement (← fieldAt result 5)
    return [.replaceProfact pkey (chomp replacement)]

/-- The field behind the command is read before the fields are counted. -/
def question (initThreadEnded : Int) (username : Str) (result : List Str) : Outcome :=
  if 0 < initThreadEnded then
    ifFields result 0 ["QUESTION"] do
      let field ← fieldAt result 1
      if field ≠ "QUESTION".toList ∧ 2 ≤ result.length ∧ isInput field then
        return [.statement (inputOf result) username true true]
      else return []
  else .ok []

def learnOrTalk (initThreadEnded : Int) (username : Str) (result : List Str) : Outcome := do
  if 0 < initThreadEnded ∧ 2 ≤ result.length then
    let field ← fieldAt result 1
    if isInput field then
      let command ← fieldAt result 0
      if command = "LEARN".toList ∧ field ≠ "LEARN".toList then
        return [.statement (inputOf result) username true false]
      else if command = "TALK".toList ∧ field ≠ "TALK".toList then
        return [.statement (inputOf result) username false true]
      else if command = "TALK_LEARN".toList ∧ field ≠ "TALK_LEARN".toList then
        return [.statement (inputOf result) username true true]
      else return []
    else return []
  else return []

/-- The blocks behind the one for `EXIT`. -/
def commands (initThreadEnded : Int) (username : Str) (result : List Str) : Outcome :=
  andThen (csv result) <| andThen (deleteFact result) <| andThen (reindex result) <|
    andThen (addXmlFile "READ" result) <| andThen (addXmlFile "LIST" result) <|
      andThen (getProfact result) <| andThen (replaceProfact result) <|
        andThen (question initThreadEnded username result)
          (learnOrTalk initThreadEnded username result)

/-- What is done for a line. `EXIT` leaves the process. -/
def dispatch (initThreadEnded : Int) (username line : Str) : Outcome :=
  let result := line.splitOn ':'
  andThen (here line result) do
    if (← fieldAt result 0) = "EXIT".toList then return [.exit]
    else commands initThreadEnded username result

/-! ## Enough fields -/

/-- The fields begin with these words. -/
def Begins (words : List String) (result : List Str) : Prop := words.map String.toList <+: result

/-- The words of a command, and how many fields it reads behind them or with them. -/
structure Need where
  words : List String
  count : Nat

/-- Behind each of the words that a line has of a command there is another field, and there are
enough of them if it has all the words. -/
def Need.Met (need : Need) (result : List Str) : Prop :=
  (∀ k < need.words.length, Begins (need.words.take k) result → k < result.length) ∧
    (Begins need.words result → need.count ≤ result.length)

def csvNeed : Need := ⟨["CSV"], 2⟩
def deleteNeed : Need := ⟨["DELETE", "FACT", "PK"], 4⟩
def readNeed : Need := ⟨["READ", "XML"], 3⟩
def listNeed : Need := ⟨["LIST", "XML"], 3⟩
def getNeed : Need := ⟨["GET", "PROFACT", "PK"], 4⟩
def replaceNeed : Need := ⟨["REPLACE", "PROFACT", "PK"], 6⟩
def questionNeed : Need := ⟨["QUESTION"], 2⟩

/-- The key behind the words of the command fits into `pkey`. -/
def Need.KeyFits (need : Need) (result : List Str) : Prop :=
  Begins need.words result → ∀ field, result[3]? = some field → (cStr field).length < 4096

/-- What the blocks read of a line is there, and fits where it is copied to. -/
structure Handled (initThreadEnded : Int) (result : List Str) : Prop where
  csv : csvNeed.Met result
  delete : deleteNeed.Met result ∧ deleteNeed.KeyFits result
  read : readNeed.Met result
  list : listNeed.Met result
  get : getNeed.Met result ∧ getNeed.KeyFits result
  replace : replaceNeed.Met result ∧ replaceNeed.KeyFits result ∧
    (Begins replaceNeed.words result →
      ∀ field, result[5]? = some field → (cStr field).length < 2000)
  question : 0 < initThreadEnded → questionNeed.Met result

/-! ## What the blocks read -/

def Ok {α : Type} (outcome : Except Fault α) : Prop := ∃ a, outcome = .ok a

@[simp] theorem ok_ok {α : Type} (a : α) : Ok (.ok a : Except Fault α) := ⟨a, rfl⟩

@[simp] theorem not_ok_error {α : Type} (fault : Fault) : ¬ Ok (.error fault : Except Fault α) := by
  rintro ⟨a, h⟩
  cases h

theorem ok_andThen {block rest : Outcome} : Ok (andThen block rest) ↔ Ok block ∧ Ok rest := by
  cases block with
  | error fault => simp [andThen, bind, Except.bind]
  | ok actions =>
      cases rest with
      | error fault => simp [andThen, bind, Except.bind]
      | ok more => simp [andThen, bind, Except.bind, pure, Except.pure]

theorem fieldAt_of_some {result : List Str} {i : Nat} {field : Str} (h : result[i]? = some field) :
    fieldAt result i = .ok field := by
  rw [fieldAt, h]

theorem fieldAt_of_none {result : List Str} {i : Nat} (h : result.length ≤ i) :
    fieldAt result i = .error .outOfRange := by
  rw [fieldAt, List.getElem?_eq_none h]

theorem begins_cons {result : List Str} {i : Nat} (hi : i < result.length) (word : String)
    (words : List String) : Begins (word :: words) (result.drop i) ↔
      result[i] = word.toList ∧ Begins words (result.drop (i + 1)) := by
  rw [List.drop_eq_getElem_cons hi, Begins, List.map_cons, List.cons_prefix_cons, eq_comm, Begins]

/-- One comparison with a field that is there. -/
theorem ok_ifFields_cons {result : List Str} {i : Nat} (hi : i < result.length) {word : String}
    {words : List String} {rest : Outcome} : Ok (ifFields result i (word :: words) rest) ↔
      (result[i] = word.toList → Ok (ifFields result (i + 1) words rest)) := by
  rw [ifFields, fieldAt_of_some (List.getElem?_eq_getElem hi)]
  by_cases hword : result[i] = word.toList
  · simp [bind, Except.bind, hword]
  · simp [bind, Except.bind, hword, pure, Except.pure]

/-- All the words before the one at which the comparison ends must have a field, and what comes
behind them must be all right if they are all there. -/
theorem ok_ifFields {result : List Str} {i : Nat} {words : List String} {rest : Outcome} :
    Ok (ifFields result i words rest) ↔
      (∀ k < words.length, Begins (words.take k) (result.drop i) → k < (result.drop i).length) ∧
        (Begins words (result.drop i) → Ok rest) := by
  induction words generalizing i with
  | nil => simp [ifFields, Begins]
  | cons word words ih =>
      by_cases hi : i < result.length
      · rw [ok_ifFields_cons hi, ih, begins_cons hi, List.length_drop, List.length_drop]
        constructor
        · intro h
          refine ⟨fun k hk hb => ?_, fun hb => (h hb.1).2 hb.2⟩
          cases k with
          | zero => omega
          | succ k =>
              rw [List.take_succ_cons, begins_cons hi] at hb
              have := (h hb.1).1 k (Nat.lt_of_succ_lt_succ hk) hb.2
              omega
        · intro h hword
          refine ⟨fun k hk hb => ?_, fun hb => h.2 ⟨hword, hb⟩⟩
          have hb' : Begins ((word :: words).take (k + 1)) (result.drop i) := by
            rw [List.take_succ_cons, begins_cons hi]
            exact ⟨hword, hb⟩
          have := h.1 (k + 1) (Nat.succ_lt_succ hk) hb'
          omega
      · have hdrop : result.drop i = [] := List.drop_eq_nil_of_le (by omega)
        rw [ifFields, fieldAt_of_none (by omega)]
        refine iff_of_false (not_ok_error _) fun h => ?_
        have hlt := h.1 0 (Nat.succ_pos _) (by simp [Begins])
        rw [hdrop] at hlt
        exact absurd hlt (Nat.lt_irrefl 0)

section

variable {result : List Str}

theorem ok_bind {α β : Type} {x : Except Fault α} {f : α → Except Fault β} :
    Ok (x >>= f) ↔ ∃ a, x = .ok a ∧ Ok (f a) := by
  cases x with
  | error fault => simp [bind, Except.bind]
  | ok a => simp [bind, Except.bind]

theorem ok_return {α : Type} (a : α) : Ok (pure a : Except Fault α) := ⟨a, rfl⟩

/-- A field that is read must be there, and then what is done with it must be all right. -/
theorem ok_fieldAt {β : Type} {i : Nat} {f : Str → Except Fault β} :
    Ok (fieldAt result i >>= f) ↔
      i < result.length ∧ ∀ field, result[i]? = some field → Ok (f field) := by
  by_cases hi : i < result.length
  · have hfield : result[i]? = some result[i] := List.getElem?_eq_getElem hi
    rw [fieldAt_of_some hfield, ok_bind, hfield]
    simp [hi]
  · rw [fieldAt_of_none (by omega), ok_bind]
    simp [hi]

/-- What is copied must fit. -/
theorem ok_fitting {α β : Type} {p : Prop} [Decidable p] {a : α} {fault : Fault}
    {f : α → Except Fault β} (hf : Ok (f a)) :
    Ok ((if p then .ok a else .error fault) >>= f) ↔ p := by
  split
  · rename_i h
    exact iff_of_true (ok_bind.mpr ⟨a, rfl, hf⟩) h
  · rename_i h
    refine iff_of_false (fun hok => ?_) h
    obtain ⟨_, ha, -⟩ := ok_bind.mp hok
    cases ha

/-- The block of a command. -/
theorem ok_need (need : Need) {rest : Outcome} {P : Prop}
    (h : Ok rest ↔ need.count ≤ result.length ∧ P) :
    Ok (ifFields result 0 need.words rest) ↔
      need.Met result ∧ (Begins need.words result → P) := by
  rw [ok_ifFields, List.drop_zero, h, Need.Met]
  tauto

theorem ok_csv : Ok (csv result) ↔ csvNeed.Met result := by
  refine (ok_need csvNeed (P := True) ?_).trans (by simp)
  rw [ok_fieldAt]
  exact and_congr Iff.rfl (iff_of_true (fun field _ => ok_return _) trivial)

theorem ok_addXmlFile {command : String} :
    Ok (addXmlFile command result) ↔ Need.Met ⟨[command, "XML"], 3⟩ result := by
  refine (ok_need ⟨[command, "XML"], 3⟩ (P := True) ?_).trans (by simp)
  rw [ok_fieldAt]
  exact and_congr Iff.rfl (iff_of_true (fun field _ => ok_return _) trivial)

/-- A command that copies only its key. -/
theorem ok_keyNeed (need : Need) (hcount : need.count = 4) {f : Str → Outcome}
    (hf : ∀ pkey, Ok (f pkey)) :
    Ok (ifFields result 0 need.words do f (← copyPkey (← fieldAt result 3))) ↔
      need.Met result ∧ need.KeyFits result := by
  refine ok_need need ?_
  rw [ok_fieldAt, hcount]
  exact and_congr Iff.rfl (forall_congr' fun field => imp_congr_right fun _ => ok_fitting (hf _))

theorem ok_deleteFact :
    Ok (deleteFact result) ↔ deleteNeed.Met result ∧ deleteNeed.KeyFits result :=
  ok_keyNeed deleteNeed rfl fun _ => ok_return _

theorem ok_getProfact : Ok (getProfact result) ↔ getNeed.Met result ∧ getNeed.KeyFits result :=
  ok_keyNeed getNeed rfl fun _ => ok_return _

/-- The key and the replacement are read at different places. -/
theorem ok_replaceProfact :
    Ok (replaceProfact result) ↔ replaceNeed.Met result ∧ replaceNeed.KeyFits result ∧
      (Begins replaceNeed.words result →
        ∀ field, result[5]? = some field → (cStr field).length < 2000) := by
  refine (ok_need replaceNeed (P := (∀ field, result[3]? = some field →
    (cStr field).length < 4096) ∧
      ∀ field, result[5]? = some field → (cStr field).length < 2000) ?_).trans ?_
  · rw [ok_fieldAt]
    by_cases hlen : 6 ≤ result.length
    · have hkey : result[3]? = some result[3] := List.getElem?_eq_getElem (by omega)
      have hnew : result[5]? = some result[5] := List.getElem?_eq_getElem (by omega)
      refine and_congr (iff_of_true (by omega) hlen) ?_
      simp only [hkey, hnew, Option.some.injEq, forall_eq']
      by_cases hfits : (cStr result[3]).length < 4096
      · rw [copyPkey, if_pos hfits, ok_bind]
        simp only [Except.ok.injEq, exists_eq_left', ok_fieldAt, hnew, Option.some.injEq,
          forall_eq', hfits, true_and]
        refine (and_iff_right (by omega)).trans ?_
        exact ok_fitting (ok_return _)
      · rw [copyPkey, if_neg hfits, ok_bind]
        simp [hfits]
    · refine iff_of_false (fun h => ?_) fun h => hlen h.1
      have hkey : result[3]? = some result[3] := List.getElem?_eq_getElem h.1
      obtain ⟨pkey, -, hok⟩ := ok_bind.mp (h.2 _ hkey)
      exact absurd (ok_fieldAt.mp hok).1 (by omega)
  · rw [Need.KeyFits]
    tauto

theorem ok_question {initThreadEnded : Int} {username : Str} :
    Ok (question initThreadEnded username result) ↔
      (0 < initThreadEnded → questionNeed.Met result) := by
  unfold question
  split
  · rename_i hinit
    refine Iff.trans ?_ (forall_prop_of_true hinit).symm
    refine (ok_need questionNeed (P := True) ?_).trans (by simp)
    rw [ok_fieldAt]
    refine and_congr Iff.rfl (iff_of_true (fun field _ => ?_) trivial)
    split
    · exact ok_return _
    · exact ok_return _
  · rename_i hinit
    exact iff_of_true (ok_ok _) fun h => absurd h hinit

/-- The fields are counted before any of them is read. -/
theorem ok_learnOrTalk (initThreadEnded : Int) (username : Str) :
    Ok (learnOrTalk initThreadEnded username result) := by
  unfold learnOrTalk
  split
  · rename_i h
    refine ok_fieldAt.mpr ⟨by omega, fun field _ => ?_⟩
    split
    · refine ok_fieldAt.mpr ⟨by omega, fun command _ => ?_⟩
      split
      · exact ok_return _
      · split
        · exact ok_return _
        · split
          · exact ok_return _
          · exact ok_return _
    · exact ok_return _
  · exact ok_return _

theorem ok_reindex (h : 0 < result.length) : Ok (reindex result) := by
  refine ok_ifFields.mpr ⟨fun k hk _ => ?_, fun _ => ok_ok _⟩
  have hk0 : k = 0 := Nat.lt_one_iff.mp hk
  rwa [hk0]

theorem ok_commands {initThreadEnded : Int} (username : Str) (h : 0 < result.length) :
    Ok (commands initThreadEnded username result) ↔ Handled initThreadEnded result := by
  simp only [commands, ok_andThen, ok_csv, ok_deleteFact, ok_reindex h, ok_addXmlFile,
    ok_getProfact, ok_replaceProfact, ok_question, ok_learnOrTalk, true_and, and_true]
  refine ⟨?_, fun hh => ⟨hh.csv, hh.delete, hh.read, hh.list, hh.get, hh.replace, hh.question⟩⟩
  rintro ⟨hcsv, hdelete, hread, hlist, hget, hreplace, hquestion⟩
  exact ⟨hcsv, hdelete, hread, hlist, hget, hreplace, hquestion⟩

/-- A line with another first field is nothing to a command. -/
theorem ok_ifFields_of_ne {command : Str} (h : result[0]? = some command) {word : String}
    (hne : command ≠ word.toList) (words : List String) (rest : Outcome) :
    Ok (ifFields result 0 (word :: words) rest) := by
  rw [ifFields, fieldAt_of_some h]
  simp [bind, Except.bind, hne, pure, Except.pure]

/-- No other block has anything to do with `EXIT`. -/
theorem handled_exit (initThreadEnded : Int) (h : result[0]? = some "EXIT".toList) :
    Handled initThreadEnded result := by
  have hlen : 0 < result.length := (List.getElem?_eq_some_iff.mp h).1
  have hne : ∀ (word : String) (words : List String) (rest : Outcome),
      "EXIT".toList ≠ word.toList → Ok (ifFields result 0 (word :: words) rest) :=
    fun word words rest hw => ok_ifFields_of_ne h hw words rest
  refine (ok_commands [] hlen).mp ?_
  simp only [commands, ok_andThen, ok_reindex hlen, ok_learnOrTalk, true_and, and_true]
  refine ⟨hne _ _ _ (by decide), hne _ _ _ (by decide), hne _ _ _ (by decide),
    hne _ _ _ (by decide), hne _ _ _ (by decide), hne _ _ _ (by decide), ?_⟩
  unfold question
  split
  · exact hne _ _ _ (by decide)
  · exact ok_ok _

end

/-- Every line has a first field. -/
theorem ok_here (line : Str) (result : List Str) : Ok (here line result) := by
  refine ok_fieldAt.mpr ⟨List.length_pos_iff.mpr (List.splitOn_ne_nil '_' line), fun field _ => ?_⟩
  split
  · exact ok_return _
  · exact ok_return _

/-- A line is handled or ignored if and only if the fields that its command reads are there and fit
where they are copied to. -/
theorem dispatch_ok_iff (initThreadEnded : Int) (username line : Str) :
    (∃ actions, dispatch initThreadEnded username line = .ok actions) ↔
      Handled initThreadEnded (line.splitOn ':') := by
  have hlen : 0 < (line.splitOn ':').length :=
    List.length_pos_iff.mpr (List.splitOn_ne_nil ':' line)
  have hfield : (line.splitOn ':')[0]? = some (line.splitOn ':')[0] := List.getElem?_eq_getElem hlen
  refine ok_andThen.trans ((and_iff_right (ok_here _ _)).trans ?_)
  rw [ok_fieldAt, hfield]
  simp only [hlen, true_and, Option.some.injEq, forall_eq']
  split
  · rename_i hexit
    exact iff_of_true (ok_return _) (handled_exit _ (hfield.trans (congrArg some hexit)))
  · exact ok_commands username hlen

/-- The command alone, without any other field. -/
theorem dispatch_csv : dispatch 1 [] "CSV".toList = .error .outOfRange := by decide

end Freehal.Hal2012.Dispatcher
