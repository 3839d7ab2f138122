import Freehal.Hal2012.Texts

/-!
# Exporting and importing a record

When the storage is given the columns and the clauses of the record that was exported.
-/

namespace Freehal.Hal2012

open Grammar2012 (XmlObj TagName)

/-! ## The parts of a record -/

/-- The parts of `Record.content` with their texts. -/
def Record.fields (r : Record) : List (Str × Str) :=
  [("subject".toList, r.subjects), ("object".toList, r.objects), ("verb".toList, r.verb),
    ("adverbs".toList, r.adverbs), ("extra".toList, r.extra),
    ("questionword".toList, r.questionword), ("truth".toList, r.truthStr),
    ("flags".toList, r.flagsStr)]

def backTree (field : Str × Str) : XmlObj := .list field.1 (readBack field.2)

/-- The text fields of the record are free of tags and line breaks. -/
structure Record.Tagless (r : Record) : Prop where
  subjects : Hal2012.Tagless r.subjects
  objects : Hal2012.Tagless r.objects
  verb : Hal2012.Tagless r.verb
  adverbs : Hal2012.Tagless r.adverbs
  extra : Hal2012.Tagless r.extra
  questionword : Hal2012.Tagless r.questionword

theorem exists_textParts {fields : List (Str × Str)}
    (h : ∀ f ∈ fields, TagName f.1 ∧ f.1 ≠ "clause".toList ∧ Tagless f.2) :
    ∃ parts : List Part, parts.map Part.tree = fields.map (fun f => textTree f.1 f.2) ∧
      parts.map Part.back = fields.map backTree := by
  induction fields with
  | nil => exact ⟨[], rfl, rfl⟩
  | cons f fields ih =>
      obtain ⟨hname, hclause, hf⟩ := h f List.mem_cons_self
      obtain ⟨parts, htree, hback⟩ := ih fun g hg => h g (List.mem_cons_of_mem _ hg)
      refine ⟨textPart f.1 f.2 hname hclause hf :: parts, ?_, ?_⟩
      · rw [List.map_cons, List.map_cons, htree]
        rfl
      · rw [List.map_cons, List.map_cons, hback]
        rfl

theorem Record.exists_parts {r : Record} (h : r.Tagless) :
    ∃ parts : List Part, parts.map Part.tree = r.content ∧
      parts.map Part.back = r.fields.map backTree := by
  have hname : ∀ f ∈ r.fields, TagName f.1 ∧ f.1 ≠ "clause".toList := by
    simp only [Record.fields, List.forall_mem_cons]
    refine ⟨?_, ?_, ?_, ?_, ?_, ?_, ?_, ?_, by simp⟩ <;>
      exact ⟨Grammar2012.tagName_of_word (by decide) (by decide), by decide⟩
  have htext : ∀ f ∈ r.fields, Hal2012.Tagless f.2 := by
    simp only [Record.fields, List.forall_mem_cons]
    exact ⟨h.subjects, h.objects, h.verb, h.adverbs, h.extra, h.questionword,
      IsNumeral.tagless (isNumeral_truthStr r), IsNumeral.tagless (isNumeral_flagsStr r), by simp⟩
  obtain ⟨parts, htree, hback⟩ :=
    exists_textParts fun f hf => ⟨(hname f hf).1, (hname f hf).2, htext f hf⟩
  exact ⟨parts, htree, hback⟩

theorem exists_clauseParts {clauses : List Record} (h : ∀ c ∈ clauses, c.Tagless) :
    ∃ parts : List Part,
      parts.map Part.tree = clauses.map (fun c => XmlObj.list "clause".toList c.content) ∧
      parts.map Part.back =
        clauses.map fun c => XmlObj.list "clause".toList (c.fields.map backTree) := by
  induction clauses with
  | nil => exact ⟨[], rfl, rfl⟩
  | cons c clauses ih =>
      obtain ⟨inner, hinner, hinnerBack⟩ := Record.exists_parts (h c List.mem_cons_self)
      obtain ⟨parts, htree, hback⟩ := ih fun d hd => h d (List.mem_cons_of_mem _ hd)
      refine ⟨clausePart inner :: parts, ?_, ?_⟩
      · rw [List.map_cons, List.map_cons, htree, ← hinner]
        rfl
      · rw [List.map_cons, List.map_cons, hback, ← hinnerBack]
        rfl

/-- The fact that is read from an exported record. -/
def FactRecord.back (r : FactRecord) : XmlObj :=
  .list "fact".toList (r.fields.map backTree ++
    r.exported.map fun clause => .list "clause".toList (clause.fields.map backTree))

theorem FactRecord.exported_isPrefix (r : FactRecord) : r.exported <+: r.clauses :=
  (List.takeWhile_prefix _).trans (List.take_prefix _ _)

theorem halxmlReadfacts_record {r : FactRecord} (h : r.Tagless)
    (hclauses : ∀ c ∈ r.clauses, c.Tagless) :
    halxmlReadfacts (Grammar2012.halxmlOrdertags (recordToXml r)) = .ok [r.back] := by
  obtain ⟨fields, hfields, hfieldsBack⟩ := Record.exists_parts h
  obtain ⟨clauses, htree, hback⟩ :=
    exists_clauseParts fun c hc => hclauses c (r.exported_isPrefix.subset hc)
  have hread := halxmlReadfacts_parts (fields ++ clauses)
  rw [List.map_append, List.map_append, hfields, hfieldsBack, htree, hback] at hread
  exact hread

/-! ## The columns that are read -/

theorem filter_name {fields : List (Str × Str)} (h : (fields.map Prod.fst).Nodup)
    {f : Str × Str} (hf : f ∈ fields) : fields.filter (·.1 = f.1) = [f] := by
  induction fields with
  | nil => cases hf
  | cons g fields ih =>
      rw [List.map_cons, List.nodup_cons] at h
      rcases List.mem_cons.mp hf with rfl | hf
      · have hrest : fields.filter (·.1 = f.1) = [] := by
          rw [List.filter_eq_nil_iff]
          intro g hg
          simp only [decide_eq_true_eq]
          intro he
          exact h.1 (he ▸ List.mem_map_of_mem hg)
        rw [List.filter_cons_of_pos (by simp), hrest]
      · have hne : ¬ g.1 = f.1 := fun he => h.1 (he ▸ List.mem_map_of_mem hf)
        rw [List.filter_cons_of_neg (by simpa using hne), ih h.2 hf]

theorem Record.nodup_fields (r : Record) : (r.fields.map Prod.fst).Nodup := by
  simp only [Record.fields, List.map_cons, List.map_nil]
  decide

variable {toFloat : Rat → Rat}

section

variable (r : Record) (name : Str) {clauses : List XmlObj}

theorem printPart_fields (hclauses : ∀ c ∈ clauses, c.name = "clause".toList) {f : Str × Str}
    (hf : f ∈ r.fields) (hname : f.1 ≠ "clause".toList) :
    printPart (.list name (r.fields.map backTree ++ clauses)) f.1 = reread f.2 := by
  have hrest : clauses.filter (·.name = f.1) = [] := by
    rw [List.filter_eq_nil_iff]
    intro c hc
    rw [hclauses c hc, decide_eq_true_eq]
    exact hname.symm
  have hfilter : (r.fields.map backTree).filter (·.name = f.1) = [backTree f] := by
    rw [List.filter_map]
    exact congrArg _ (filter_name r.nodup_fields hf)
  rw [printPart, XmlObj.content, List.filter_append, hrest, hfilter, List.append_nil, printStrs]
  exact printStr_readBack f.1 f.2

/-- The record that is read from the parts of a record. -/
def Record.imported (toFloat : Rat → Rat) (r : Record) : Record :=
  let flags := readFlags r.flagsStr
  { subjects := reread r.subjects
    objects := reread r.objects
    verb := reread r.verb
    adverbs := reread r.adverbs
    extra := reread r.extra
    questionword := reread r.questionword
    truth := toFloat (scanFloat r.truthStr)
    verbFlagWant := flags.getD 0 0
    verbFlagMust := flags.getD 1 0
    verbFlagCan := flags.getD 2 0
    verbFlagMay := flags.getD 3 0
    verbFlagShould := flags.getD 4 0 }

theorem readColumns_fields (hclauses : ∀ c ∈ clauses, c.name = "clause".toList) :
    readColumns toFloat (.list name (r.fields.map backTree ++ clauses)) =
      r.imported toFloat := by
  have hpart := fun f (hf : f ∈ r.fields) => @printPart_fields r name clauses hclauses f hf
  have htruth : reread r.truthStr = r.truthStr :=
    reread_eq_self.mpr (IsNumeral.kept (isNumeral_truthStr r))
  have hflags : reread r.flagsStr = r.flagsStr :=
    reread_eq_self.mpr (IsNumeral.kept (isNumeral_flagsStr r))
  simp only [Record.fields, List.forall_mem_cons] at hpart
  obtain ⟨h1, h2, h3, h4, h5, h6, h7, h8, -⟩ := hpart
  rw [readColumns, Record.imported]
  simp only [Record.fields]
  rw [h1 (by decide), h2 (by decide), h3 (by decide), h4 (by decide), h5 (by decide),
    h6 (by decide), h7 (by decide), h8 (by decide), htruth, hflags]

end

/-! ## What the storage is given -/

/-- The columns of the record, with the truth value as the storage takes it. -/
def Record.stored (toFloat : Rat → Rat) (r : Record) : Record :=
  { r with truth := toFloat r.truth }

/-- The texts of the record are kept, no flag is set, and the truth value is what its notation
says. -/
structure Record.Survives (toFloat : Rat → Rat) (r : Record) : Prop where
  subjects : Kept r.subjects
  objects : Kept r.objects
  verb : Kept r.verb
  adverbs : Kept r.adverbs
  extra : Kept r.extra
  questionword : Kept r.questionword
  truth : toFloat (scanFloat (snprintf9 (formatFloat r.truth))) = toFloat r.truth
  flags : r.NoFlags

theorem Record.imported_eq {r : Record} :
    r.imported toFloat = r.stored toFloat ↔ r.Survives toFloat := by
  refine ⟨fun h => ?_, fun h => ?_⟩
  · simp only [Record.imported, Record.stored, Record.mk.injEq] at h
    obtain ⟨h1, h2, h3, h4, h5, h6, htruth, hflags⟩ := h
    exact ⟨reread_eq_self.mp h1, reread_eq_self.mp h2, reread_eq_self.mp h3,
      reread_eq_self.mp h4, reread_eq_self.mp h5, reread_eq_self.mp h6, htruth,
      Record.hasFlags_iff.mp hflags⟩
  · simp only [Record.imported, Record.stored, Record.mk.injEq]
    exact ⟨reread_eq_self.mpr h.subjects, reread_eq_self.mpr h.objects,
      reread_eq_self.mpr h.verb, reread_eq_self.mpr h.adverbs, reread_eq_self.mpr h.extra,
      reread_eq_self.mpr h.questionword, h.truth, Record.hasFlags_iff.mpr h.flags⟩

/-- A clause is exported when it is among the first nine and the loop does not break before it. -/
theorem FactRecord.exported_eq {r : FactRecord} : r.exported = r.clauses ↔
    r.clauses.length < maxClauses ∧ ∀ c ∈ r.clauses, c.isRejected = false := by
  refine ⟨fun h => ?_, fun ⟨hlen, hall⟩ => ?_⟩
  · have hlen : (r.clauses.take (maxClauses - 1)).length = r.clauses.length :=
      Nat.le_antisymm (List.length_take_le' _ _) (by
        rw [← congrArg List.length h]
        exact (List.takeWhile_prefix _).length_le)
    have htake : r.clauses.take (maxClauses - 1) = r.clauses :=
      (List.take_prefix _ _).eq_of_length hlen
    rw [FactRecord.exported, htake] at h
    refine ⟨?_, fun c hc => ?_⟩
    · rw [List.length_take] at hlen
      simp only [maxClauses] at hlen ⊢
      omega
    · simpa using List.takeWhile_eq_self_iff.mp h c hc
  · rw [FactRecord.exported, List.take_of_length_le (Nat.le_sub_one_of_lt hlen)]
    exact List.takeWhile_eq_self_iff.mpr fun c hc => by simp [hall c hc]

theorem addXmlFact_back (pk : Int) (r : FactRecord) : addXmlFact toFloat pk r.back =
    .addFact (r.imported toFloat) [] [] false false ::
      if pk ≠ 0 then r.exported.map fun c => .addClause pk (c.imported toFloat) [] [] else [] := by
  have hnames : ∀ c ∈ r.exported.map (fun clause =>
      XmlObj.list "clause".toList (clause.fields.map backTree)), c.name = "clause".toList := by
    intro c hc
    obtain ⟨clause, -, rfl⟩ := List.mem_map.mp hc
    rfl
  have hfields : (r.fields.map backTree).filter (·.name = "clause".toList) = [] := by
    simp only [Record.fields]
    rfl
  have hclause : ∀ clause : Record,
      readColumns toFloat (.list "clause".toList (clause.fields.map backTree)) =
        clause.imported toFloat := by
    intro clause
    have h := @readColumns_fields toFloat clause "clause".toList [] (by simp)
    rwa [List.append_nil] at h
  rw [addXmlFact, FactRecord.back, readColumns_fields _ _ hnames, XmlObj.content,
    List.filter_append, hfields, List.nil_append, List.filter_eq_self.mpr fun c hc => by
      simp [hnames c hc], List.map_map]
  simp only [Function.comp_def, hclause]

/-- The storage is given what the record contains. -/
def Restored (toFloat : Rat → Rat) (pk : Int) (r : FactRecord) : Prop :=
  ∃ fact, halxmlReadfacts (Grammar2012.halxmlOrdertags (recordToXml r)) = .ok [fact] ∧
    addXmlFact toFloat pk fact = .addFact (r.stored toFloat) [] [] false false ::
      r.clauses.map fun c => .addClause pk (c.stored toFloat) [] []

theorem map_addClause_eq {pk : Int} {clauses kept : List Record} (hkept : kept <+: clauses) :
    kept.map (fun c => StorageCall.addClause pk (c.imported toFloat) [] []) =
        clauses.map (fun c => StorageCall.addClause pk (c.stored toFloat) [] []) ↔
      kept = clauses ∧ ∀ c ∈ clauses, c.Survives toFloat := by
  have hall : clauses.map (fun c => StorageCall.addClause pk (c.imported toFloat) [] []) =
      clauses.map (fun c => StorageCall.addClause pk (c.stored toFloat) [] []) ↔
        ∀ c ∈ clauses, c.Survives toFloat := by
    rw [List.map_inj_left]
    simp [StorageCall.addClause.injEq, Record.imported_eq]
  refine ⟨fun h => ?_, ?_⟩
  · have hlen := congrArg List.length h
    rw [List.length_map, List.length_map] at hlen
    obtain rfl := hkept.eq_of_length hlen
    exact ⟨rfl, hall.mp h⟩
  · rintro ⟨rfl, h⟩
    exact hall.mpr h

theorem restored_calls {pk : Int} {r : FactRecord} (h : r.Tagless)
    (hclauses : ∀ c ∈ r.clauses, c.Tagless) : Restored toFloat pk r ↔
      addXmlFact toFloat pk r.back = .addFact (r.stored toFloat) [] [] false false ::
        r.clauses.map fun c => .addClause pk (c.stored toFloat) [] [] := by
  simp [Restored, halxmlReadfacts_record h hclauses]

/-- The exact records that are given to the storage as they are: the texts are trimmed and single
spaced, no flag is set, the truth value survives its notation, at most nine clauses and none where
the loop breaks; and clauses need the key of the new fact. -/
theorem restored_iff (toFloat : Rat → Rat) (pk : Int) (r : FactRecord) (h : r.Tagless)
    (hclauses : ∀ c ∈ r.clauses, c.Tagless) : Restored toFloat pk r ↔
      r.Survives toFloat ∧ (∀ c ∈ r.clauses, c.Survives toFloat ∧ c.isRejected = false) ∧
        r.clauses.length < maxClauses ∧ (r.clauses ≠ [] → pk ≠ 0) := by
  rw [restored_calls h hclauses, addXmlFact_back, List.cons.injEq, StorageCall.addFact.injEq,
    Record.imported_eq]
  by_cases hpk : pk = 0
  · have hempty : r.clauses = [] → r.clauses.length < maxClauses := by
      intro hnil
      simp [hnil, maxClauses]
    rw [if_neg (by simp [hpk])]
    constructor
    · rintro ⟨⟨hr, -⟩, hnil⟩
      have hnil := List.map_eq_nil_iff.mp hnil.symm
      exact ⟨hr, by simp [hnil], hempty hnil, fun hne => absurd hnil hne⟩
    · rintro ⟨hr, -, -, hne⟩
      have hnil : r.clauses = [] := by
        by_contra hcon
        exact hne hcon hpk
      simp [hr, hnil]
  · rw [if_pos hpk, map_addClause_eq r.exported_isPrefix, FactRecord.exported_eq]
    constructor
    · rintro ⟨⟨hr, -⟩, ⟨hlen, hrejected⟩, hsurvive⟩
      exact ⟨hr, fun c hc => ⟨hsurvive c hc, hrejected c hc⟩, hlen, fun _ => hpk⟩
    · rintro ⟨hr, hall, hlen, -⟩
      exact ⟨⟨hr, rfl, rfl, rfl, rfl⟩, ⟨hlen, fun c hc => (hall c hc).2⟩,
        fun c hc => (hall c hc).1⟩

/-- A record of a subject and a verb. -/
def simpleRecord (subjects verb : Str) (must : Int) : Record where
  subjects := subjects
  objects := []
  verb := verb
  adverbs := []
  extra := []
  questionword := []
  truth := 1
  verbFlagWant := 0
  verbFlagMust := must
  verbFlagCan := 0
  verbFlagMay := 0
  verbFlagShould := 0

theorem restored_iff_clause : Restored id 1
    ⟨simpleRecord "the cat".toList "sleep".toList 0,
      [simpleRecord "dog".toList "bark".toList 0], by decide⟩ := by
  have htagless : ∀ subjects verb : Str, Tagless subjects → Tagless verb →
      (simpleRecord subjects verb 0).Tagless := fun subjects verb h1 h2 =>
    have hnil : Tagless [] := ⟨by simp, by simp, by simp, by simp⟩
    ⟨h1, hnil, h2, hnil, hnil, hnil⟩
  have hone : scanFloat (snprintf9 (formatFloat 1)) = 1 := by
    have h := @scanFloat_millionths 1000000 (by decide)
    have hmk : mkRat (1000000 : Nat) 1000000 = 1 := by decide +kernel
    rwa [hmk] at h
  have hsurvives : ∀ subjects verb : Str, reread subjects = subjects → reread verb = verb →
      (simpleRecord subjects verb 0).Survives id := fun subjects verb h1 h2 =>
    have hnil : Kept [] := reread_eq_self.mp rfl
    ⟨reread_eq_self.mp h1, hnil, reread_eq_self.mp h2, hnil, hnil, hnil,
      by simpa only [simpleRecord, id] using hone, rfl, rfl, rfl, rfl, rfl⟩
  refine (restored_iff id 1 _ ?_ ?_).mpr ⟨?_, ?_, by decide, by decide⟩
  · exact htagless _ _ ⟨by decide, by decide, by decide, by decide⟩
      ⟨by decide, by decide, by decide, by decide⟩
  · intro c hc
    obtain rfl := List.mem_singleton.mp hc
    exact htagless _ _ ⟨by decide, by decide, by decide, by decide⟩
      ⟨by decide, by decide, by decide, by decide⟩
  · exact hsurvives _ _ rfl rfl
  · intro c hc
    obtain rfl := List.mem_singleton.mp hc
    exact ⟨hsurvives _ _ rfl rfl, rfl⟩

/-- A flag does not come back: `01000` is read as one number. -/
theorem not_restored_flag : ¬ ∀ (toFloat : Rat → Rat) (pk : Int) (r : FactRecord), pk ≠ 0 →
    r.Tagless → (∀ c ∈ r.clauses, c.Tagless) → Restored toFloat pk r := by
  intro hall
  have hnil : Tagless [] := ⟨by simp, by simp, by simp, by simp⟩
  have htagless : (simpleRecord "cat".toList "sleep".toList 1).Tagless :=
    ⟨⟨by decide, by decide, by decide, by decide⟩, hnil, ⟨by decide, by decide, by decide,
      by decide⟩, hnil, hnil, hnil⟩
  have h := hall id 1 ⟨simpleRecord "cat".toList "sleep".toList 1, [], by decide⟩ (by decide)
    htagless (by simp)
  rw [restored_calls htagless (by simp), addXmlFact_back, List.cons.injEq,
    StorageCall.addFact.injEq, Record.imported_eq] at h
  exact absurd h.1.1.flags (by rintro ⟨-, hmust, -⟩; cases hmust)

end Freehal.Hal2012
