import Freehal.Talk.FactSource

/-!
# Requests in CSV

`hal2012_get_csv` of `hal2012-talk.cpp` up to the search: the record that it searches with. A call
fails where `at` throws, and where `strcpy` writes behind the array of the record.
-/

namespace Freehal.Talk

open Universal (atoi)

/-! ## The record -/

/-- The members of `RECORD` that are set. Only `everything_q` may be left as it was. -/
structure Record where
  verb : Str
  subjects : Str
  objects : Str
  adverbs : Str
  extra : Str
  context : Str
  pkey : Str
  verbFlagWant : Int
  verbFlagMust : Int
  verbFlagCan : Int
  verbFlagMay : Int
  verbFlagShould : Int
  everythingQ : Option Int
deriving DecidableEq

def lineSize : Nat := 4096

def everything : Int := 3

inductive Failure where
  | outOfRange
  | overflow
deriving DecidableEq

/-- `strcpy` into an array of the record, with the null character at the end. -/
def strcpy (text : Str) : Except Failure Str :=
  if text.length + 1 ≤ lineSize then .ok text else .error .overflow

/-- `buffer->at(i)` -/
def fieldAt (buffer : List Str) (i : Nat) : Except Failure Str :=
  match buffer[i]? with
  | some field => .ok field
  | none => .error .outOfRange

def filterEmptyStr (s : Str) : Str := if s ≠ [] ∧ s ≠ [' '] ∧ s ≠ ['*'] then s else []

def filterEmptyInt (s : Str) : Int :=
  if filterEmptyStr s = [] then 0 else extractInt (filterEmptyStr s)

/-- What is left of an `int` in a `short`. -/
def toShort (i : Int) : Int := (i + 32768) % 65536 - 32768

def textAt (buffer : List Str) (i : Nat) : Except Failure Str := do
  strcpy (filterEmptyStr (← fieldAt buffer i))

def flagAt (buffer : List Str) (i : Nat) : Except Failure Int := do
  return toShort (filterEmptyInt (← fieldAt buffer i))

def isEverything (buffer : List Str) : Bool :=
  decide (buffer.length > 12) && decide (buffer[12]? = some "everything".toList)

def emptyRecord : Record := ⟨[], [], [], [], [], [], [], 0, 0, 0, 0, 0, none⟩

def splitRecord (buffer : List Str) : Except Failure Record := do
  return {
    verb := ← textAt buffer 0
    subjects := ← textAt buffer 1
    objects := ← textAt buffer 2
    adverbs := ← textAt buffer 3
    extra := ← textAt buffer 4
    context := ← textAt buffer 5
    pkey := ← textAt buffer 6
    verbFlagWant := ← flagAt buffer 7
    verbFlagMust := ← flagAt buffer 8
    verbFlagCan := ← flagAt buffer 9
    verbFlagMay := ← flagAt buffer 10
    verbFlagShould := ← flagAt buffer 11
    everythingQ := if isEverything buffer then some everything else none }

def orDefault (text default : Str) : Str := if text.length = 0 then default else text

def Record.withDefaults (r : Record) : Record :=
  { r with
    verb := orDefault r.verb ['0']
    subjects := orDefault r.subjects ['0']
    objects := orDefault r.objects ['0']
    adverbs := orDefault r.adverbs ['0']
    extra := orDefault r.extra ['0']
    pkey := orDefault r.pkey ['0']
    context := orDefault r.context "default".toList }

/-- `simple_split(csv_request, "^")` -/
def csvFields (csvRequest : Str) : List Str := csvRequest.splitOn '^'

def hal2012GetCsv (csvRequest : Str) : Except Failure Record := do
  let buffer := csvFields csvRequest
  let r ← if buffer.length ≥ 13 then .ok emptyRecord else splitRecord buffer
  return r.withDefaults

/-! ## The request -/

def Record.texts (r : Record) : List Str :=
  [r.verb, r.subjects, r.objects, r.adverbs, r.extra, r.context, r.pkey]

def Record.flags (r : Record) : List Int :=
  [r.verbFlagWant, r.verbFlagMust, r.verbFlagCan, r.verbFlagMay, r.verbFlagShould]

def defaults : List Str :=
  [['0'], ['0'], ['0'], ['0'], ['0'], "default".toList, ['0']]

/-- A blank and a star stand for nothing. -/
def IsEmptyField (field : Str) : Prop := field = [] ∨ field = [' '] ∨ field = ['*']

instance (field : Str) : Decidable (IsEmptyField field) :=
  inferInstanceAs (Decidable (field = [] ∨ field = [' '] ∨ field = ['*']))

def requested (default field : Str) : Str := if IsEmptyField field then default else field

/-- The record has the seven texts and the five flags of the request. -/
structure Faithful (fields : List Str) (r : Record) : Prop where
  texts : r.texts = List.zipWith requested defaults (fields.take 7)
  flags : r.flags = ((fields.drop 7).take 5).map atoi

/-- Nothing fails, and with twelve fields or more the record is that of the request. -/
def ReadsFaithfully (csvRequest : Str) : Prop :=
  ∃ r, hal2012GetCsv csvRequest = .ok r
    ∧ (12 ≤ (csvFields csvRequest).length → Faithful (csvFields csvRequest) r)

/-- Twelve fields whose texts fit into the record and whose flags fit into a `short`. -/
structure TwelveFields (fields : List Str) : Prop where
  number : fields.length = 12
  texts : ∀ field ∈ fields.take 7, field.length < lineSize
  flags : ∀ field ∈ fields.drop 7, -32768 ≤ atoi field ∧ atoi field ≤ 32767

/-- More fields, all of which ask for nothing. -/
structure NothingAsked (fields : List Str) : Prop where
  number : 13 ≤ fields.length
  texts : ∀ p ∈ defaults.zip fields, IsEmptyField p.2 ∨ p.2 = p.1
  flags : ∀ field ∈ (fields.drop 7).take 5, atoi field = 0

/-! ## Reading a field -/

theorem bind_eq_ok {ε α β : Type} {x : Except ε α} {f : α → Except ε β} {b : β} :
    (x >>= f) = .ok b ↔ ∃ a, x = .ok a ∧ f a = .ok b := by
  cases x with
  | error e => simp [bind, Except.bind]
  | ok a => simp [bind, Except.bind]

theorem fieldAt_eq_ok {buffer : List Str} {i : Nat} {field : Str} :
    fieldAt buffer i = .ok field ↔ buffer[i]? = some field := by
  unfold fieldAt
  cases buffer[i]? with
  | none => simp
  | some a => simp

theorem filterEmptyStr_eq (s : Str) : filterEmptyStr s = if IsEmptyField s then [] else s := by
  have hiff : (s ≠ [] ∧ s ≠ [' '] ∧ s ≠ ['*']) ↔ ¬ IsEmptyField s := by
    simp only [IsEmptyField, not_or, ne_eq]
  rw [filterEmptyStr]
  by_cases h : IsEmptyField s
  · rw [if_pos h, if_neg fun hne => hiff.mp hne h]
  · rw [if_neg h, if_pos (hiff.mpr h)]

theorem length_filterEmptyStr_lt {s : Str} :
    (filterEmptyStr s).length < lineSize ↔ s.length < lineSize := by
  rw [filterEmptyStr_eq]
  split
  · rename_i h
    rcases h with rfl | rfl | rfl <;> simp [lineSize]
  · rfl

theorem textAt_eq_ok {buffer : List Str} {i : Nat} {text : Str} :
    textAt buffer i = .ok text ↔
      ∃ field, buffer[i]? = some field ∧ field.length < lineSize ∧ filterEmptyStr field = text := by
  simp only [textAt, bind_eq_ok, fieldAt_eq_ok, strcpy]
  constructor
  · rintro ⟨field, hfield, h⟩
    split at h
    · rename_i hlen
      exact ⟨field, hfield, length_filterEmptyStr_lt.mp hlen, Except.ok.inj h⟩
    · cases h
  · rintro ⟨field, hfield, hlen, rfl⟩
    exact ⟨field, hfield, if_pos (length_filterEmptyStr_lt.mpr hlen)⟩

theorem flagAt_eq_ok {buffer : List Str} {i : Nat} {flag : Int} :
    flagAt buffer i = .ok flag ↔
      ∃ field, buffer[i]? = some field ∧ toShort (filterEmptyInt field) = flag := by
  simp [flagAt, bind_eq_ok, fieldAt_eq_ok, pure, Except.pure]

/-- The text that is searched with. -/
theorem orDefault_filterEmptyStr (field default : Str) :
    orDefault (filterEmptyStr field) default = requested default field := by
  rw [filterEmptyStr_eq, orDefault, requested]
  by_cases h : IsEmptyField field
  · simp [h]
  · have hne : field ≠ [] := fun he => h (.inl he)
    simp [h, hne]

theorem filterEmptyInt_eq (field : Str) : filterEmptyInt field = extractInt field := by
  rw [filterEmptyInt, filterEmptyStr_eq]
  by_cases h : IsEmptyField field
  · rw [if_pos h, if_pos rfl]
    rcases h with rfl | rfl | rfl <;> decide
  · have hne : field ≠ [] := fun he => h (.inl he)
    rw [if_neg h, if_neg hne]

/-- A flag comes through exactly when a `short` holds it: a number that is out of the range of
`int` ends as -1 or 0. -/
theorem toShort_filterEmptyInt_eq_iff {field : Str} :
    toShort (filterEmptyInt field) = atoi field ↔ -32768 ≤ atoi field ∧ atoi field ≤ 32767 := by
  rw [filterEmptyInt_eq, toShort, extractInt]
  omega

/-! ## Reading a request -/

theorem splitRecord_eq_ok {buffer : List Str} {r : Record} :
    splitRecord buffer = .ok r ↔
      (textAt buffer 0 = .ok r.verb ∧ textAt buffer 1 = .ok r.subjects
        ∧ textAt buffer 2 = .ok r.objects ∧ textAt buffer 3 = .ok r.adverbs
        ∧ textAt buffer 4 = .ok r.extra ∧ textAt buffer 5 = .ok r.context
        ∧ textAt buffer 6 = .ok r.pkey)
      ∧ (flagAt buffer 7 = .ok r.verbFlagWant ∧ flagAt buffer 8 = .ok r.verbFlagMust
        ∧ flagAt buffer 9 = .ok r.verbFlagCan ∧ flagAt buffer 10 = .ok r.verbFlagMay
        ∧ flagAt buffer 11 = .ok r.verbFlagShould)
      ∧ r.everythingQ = if isEverything buffer then some everything else none := by
  simp only [splitRecord, bind_eq_ok, pure, Except.pure, Except.ok.injEq]
  constructor
  · rintro ⟨_, h0, _, h1, _, h2, _, h3, _, h4, _, h5, _, h6, _, h7, _, h8, _, h9, _, h10, _, h11,
      rfl⟩
    exact ⟨⟨h0, h1, h2, h3, h4, h5, h6⟩, ⟨h7, h8, h9, h10, h11⟩, rfl⟩
  · rintro ⟨⟨h0, h1, h2, h3, h4, h5, h6⟩, ⟨h7, h8, h9, h10, h11⟩, hq⟩
    exact ⟨_, h0, _, h1, _, h2, _, h3, _, h4, _, h5, _, h6, _, h7, _, h8, _, h9, _, h10, _, h11,
      by rw [← hq]⟩

/-- Without the twelfth field `at` throws. -/
theorem length_of_splitRecord {buffer : List Str} {r : Record} (h : splitRecord buffer = .ok r) :
    12 ≤ buffer.length := by
  obtain ⟨-, ⟨-, -, -, -, hlast⟩, -⟩ := splitRecord_eq_ok.mp h
  obtain ⟨field, hfield, -⟩ := flagAt_eq_ok.mp hlast
  obtain ⟨hlt, -⟩ := List.getElem?_eq_some_iff.mp hfield
  omega

/-- Exactly twelve fields are read one by one. -/
theorem splitRecord_faithful_iff {buffer : List Str} (h : buffer.length = 12) :
    (∃ r, splitRecord buffer = .ok r ∧ Faithful buffer r.withDefaults) ↔ TwelveFields buffer := by
  match buffer, h with
  | [f0, f1, f2, f3, f4, f5, f6, f7, f8, f9, f10, f11], h =>
      constructor
      · rintro ⟨r, hr, hfaithful⟩
        obtain ⟨htexts, hflags, -⟩ := splitRecord_eq_ok.mp hr
        have hwanted := hfaithful.flags
        simp only [textAt_eq_ok, List.getElem?_cons_zero, List.getElem?_cons_succ,
          Option.some.injEq, exists_eq_left'] at htexts
        simp only [flagAt_eq_ok, List.getElem?_cons_zero, List.getElem?_cons_succ,
          Option.some.injEq, exists_eq_left'] at hflags
        refine ⟨h, ?_, ?_⟩
        · simp [htexts]
        · simp only [Record.flags, Record.withDefaults, List.drop_succ_cons, List.drop_zero,
            List.take_succ_cons, List.take_zero, List.map_cons, List.map_nil, ← hflags.1,
            ← hflags.2.1, ← hflags.2.2.1, ← hflags.2.2.2.1, ← hflags.2.2.2.2, List.cons.injEq,
            toShort_filterEmptyInt_eq_iff] at hwanted
          simp [hwanted]
      · intro htwelve
        have htexts := htwelve.texts
        have hflags := htwelve.flags
        simp only [List.take_succ_cons, List.take_zero, List.forall_mem_cons] at htexts
        simp only [List.drop_succ_cons, List.drop_zero, List.forall_mem_cons,
          ← toShort_filterEmptyInt_eq_iff] at hflags
        refine ⟨⟨filterEmptyStr f0, filterEmptyStr f1, filterEmptyStr f2, filterEmptyStr f3,
          filterEmptyStr f4, filterEmptyStr f5, filterEmptyStr f6, atoi f7, atoi f8, atoi f9,
          atoi f10, atoi f11, none⟩, splitRecord_eq_ok.mpr ⟨?_, ?_, ?_⟩, ?_, ?_⟩
        · simp [textAt_eq_ok, htexts]
        · simp [flagAt_eq_ok, hflags]
        · simp [isEverything]
        · simp [Record.texts, Record.withDefaults, orDefault_filterEmptyStr, defaults]
        · simp [Record.flags, Record.withDefaults]

/-- With more fields the record is empty, whatever the request is. -/
theorem emptyRecord_faithful_iff {buffer : List Str} (h : 13 ≤ buffer.length) :
    Faithful buffer emptyRecord.withDefaults ↔ NothingAsked buffer := by
  match buffer, h with
  | f0 :: f1 :: f2 :: f3 :: f4 :: f5 :: f6 :: f7 :: f8 :: f9 :: f10 :: f11 :: f12 :: rest, h =>
      have htext : ∀ default field : Str,
          default = requested default field ↔ IsEmptyField field ∨ field = default := by
        intro default field
        unfold requested
        split
        · simp [*]
        · simp [*, eq_comm]
      have hflag : (∀ field ∈ ((f0 :: f1 :: f2 :: f3 :: f4 :: f5 :: f6 :: f7 :: f8 :: f9 :: f10
          :: f11 :: f12 :: rest).drop 7).take 5, atoi field = 0)
          ↔ [0, 0, 0, 0, 0] = [f7, f8, f9, f10, f11].map atoi := by
        simp only [List.drop_succ_cons, List.drop_zero, List.take_succ_cons, List.take_zero,
          List.forall_mem_cons, List.map_cons, List.map_nil, List.cons.injEq, @eq_comm Int 0]
        simp
      constructor
      · intro hfaithful
        refine ⟨h, ?_, hflag.mpr hfaithful.flags⟩
        have := hfaithful.texts
        simpa [Record.texts, Record.withDefaults, emptyRecord, orDefault, defaults, htext]
          using this
      · intro hnothing
        refine ⟨?_, hflag.mp hnothing.flags⟩
        have := hnothing.texts
        simpa [Record.texts, Record.withDefaults, emptyRecord, orDefault, defaults, htext]
          using this

/-- A request is read faithfully exactly when it has twelve fields that fit, or more fields
that ask for nothing. -/
theorem readsFaithfully_iff (csvRequest : Str) : ReadsFaithfully csvRequest ↔
    TwelveFields (csvFields csvRequest) ∨ NothingAsked (csvFields csvRequest) := by
  unfold ReadsFaithfully hal2012GetCsv
  generalize csvFields csvRequest = buffer
  by_cases hmany : buffer.length ≥ 13
  · have hnot : ¬ TwelveFields buffer := fun h => by have := h.number; omega
    rw [← emptyRecord_faithful_iff hmany]
    simp [hmany, hnot, bind, Except.bind, pure, Except.pure, show 12 ≤ buffer.length by omega]
  · have hnot : ¬ NothingAsked buffer := fun h => by have := h.number; omega
    simp only [hmany, if_false, bind_eq_ok, hnot, or_false, pure, Except.pure, Except.ok.injEq]
    by_cases hlen : buffer.length = 12
    · rw [← splitRecord_faithful_iff hlen]
      constructor
      · rintro ⟨r, ⟨r', hr', rfl⟩, hfaithful⟩
        exact ⟨r', hr', hfaithful (by omega)⟩
      · rintro ⟨r', hr', hfaithful⟩
        exact ⟨_, ⟨r', hr', rfl⟩, fun _ => hfaithful⟩
    · constructor
      · rintro ⟨r, ⟨r', hr', rfl⟩, -⟩
        have := length_of_splitRecord hr'
        omega
      · intro h
        exact absurd h.number hlen

/-- The thirteenth field makes the request be dropped. -/
theorem everything_not_faithful :
    ¬ ReadsFaithfully "ist^katze^tier^^^^^0^0^0^0^0^everything".toList := by
  rintro ⟨r, hr, hfaithful⟩
  have hcall : hal2012GetCsv "ist^katze^tier^^^^^0^0^0^0^0^everything".toList
      = .ok emptyRecord.withDefaults := by decide
  rw [hcall] at hr
  obtain rfl := Except.ok.inj hr
  exact absurd (hfaithful (by decide)).texts (by decide)

end Freehal.Talk
