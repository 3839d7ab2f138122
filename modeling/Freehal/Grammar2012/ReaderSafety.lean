import Freehal.Grammar2012.Lemmas.Reader
import Freehal.Lib.Dangling

/-!
# Which lines the reader reads

For which lines `halxml_readtree` and `halxml_readfacts` read only existing elements. Both take the
line behind a mark, whatever it is, and test the bound for the mark only.
-/

namespace Freehal.Grammar2012

open Lib (dangles dangles_iff dangles_taken dangles_cons dangles_append_cons)

/-! ## Lines -/

/-- `halxml_readfacts` after the lines are split. -/
def readfactsLines (lines : List Str) : Except ReadError (List XmlObj) := do
  let _ ← countFacts lines
  readfactsLoop (lines.length + 1) lines

def isStart (line : Str) : Bool := line = ['<']

/-- A mark of a tag, with the name in the next line. -/
def isTagMark (line : Str) : Bool := line = ['<'] || line = ['>']

/-- The lines behind the end tag of the last one of the open tags. Nothing if an end tag is
missing. -/
def afterTags : List Str → List Str → Option (List Str)
  | [], lines => some lines
  | _ :: _, [] => none
  | _ :: _, [_] => none
  | tag :: tags, line :: name :: lines =>
      if line = ['>'] then afterTags (if name = tag then tags else tag :: tags) lines
      else if line = ['<'] then afterTags (name :: tag :: tags) lines
      else afterTags (tag :: tags) (name :: lines)

/-- Whether the lines end in a fact that is not closed. `tags` are the open tags. -/
def inFact : List Str → List Str → Bool
  | tags, [] => tags ≠ []
  | tags, [_] => tags ≠ []
  | [], line :: name :: lines =>
      if line = ['<'] then inFact (if name = "fact".toList then [name] else []) lines
      else inFact [] (name :: lines)
  | tag :: tags, line :: name :: lines =>
      if line = ['>'] then inFact (if name = tag then tags else tag :: tags) lines
      else if line = ['<'] then inFact (name :: tag :: tags) lines
      else inFact (tag :: tags) (name :: lines)

/-! ## One kind of line -/

section

variable {tag line name : Str} {tags lines : List Str}

theorem afterTags_stop : afterTags (tag :: tags) (['>'] :: name :: lines) =
    afterTags (if name = tag then tags else tag :: tags) lines := by
  rw [afterTags, if_pos rfl]

theorem afterTags_start : afterTags (tag :: tags) (['<'] :: name :: lines) =
    afterTags (name :: tag :: tags) lines := by
  rw [afterTags, if_neg (by decide), if_pos rfl]

theorem afterTags_text (h : isTagMark line = false) :
    afterTags (tag :: tags) (line :: lines) = afterTags (tag :: tags) lines := by
  cases lines with
  | nil => rfl
  | cons name lines =>
      have h' : line ≠ ['<'] ∧ line ≠ ['>'] := by simpa [isTagMark] using h
      rw [afterTags, if_neg h'.2, if_neg h'.1]

end

/-- Behind the open tags the lines are read as at the start. -/
theorem inFact_eq (tags lines : List Str) : inFact tags lines =
    match afterTags tags lines with
    | some rest => inFact [] rest
    | none => true := by
  fun_induction afterTags tags lines with
  | case1 => rfl
  | case2 => rfl
  | case3 => rfl
  | case4 tag tags name lines ih => rw [inFact, if_pos rfl, ih]
  | case5 tag tags name lines h ih => rw [inFact, if_neg h, if_pos rfl, ih]
  | case6 tag tags line name lines h h' ih => rw [inFact, if_neg h, if_neg h', ih]

/-! ## Reading a tree -/

/-- What comes out of the loop for a tree inside open tags: the lines end, the end tag of the tree
is read, or the line behind a mark is missing. -/
inductive Outcome (tag : Str) (tags lines : List Str) :
    Except ReadError (List XmlObj × List Str) → Prop where
  | ended (content : List XmlObj) (hafter : afterTags (tag :: tags) lines = none)
      (hlines : dangles isTagMark lines = false) : Outcome tag tags lines (.ok (content, []))
  | closed (content : List XmlObj) (pre rest : List Str) (hpre : lines = pre ++ tag :: rest)
      (hafter : afterTags (tag :: tags) lines = afterTags tags rest)
      (hlines : dangles isTagMark lines = dangles isTagMark rest) :
      Outcome tag tags lines (.ok (content, tag :: rest))
  | outOfRange (hafter : afterTags (tag :: tags) lines = none)
      (hlines : dangles isTagMark lines = true) : Outcome tag tags lines (.error .outOfRange)

theorem Outcome.of_append {tag : Str} {tags pre lines : List Str}
    {r : Except ReadError (List XmlObj × List Str)} (h : Outcome tag tags lines r)
    (hafter : afterTags (tag :: tags) (pre ++ lines) = afterTags (tag :: tags) lines)
    (hlines : dangles isTagMark (pre ++ lines) = dangles isTagMark lines) :
    Outcome tag tags (pre ++ lines) r := by
  cases h with
  | ended content ha hl => exact .ended content (hafter.trans ha) (hlines.trans hl)
  | closed content pre' rest hpre ha hl =>
      refine .closed content (pre ++ pre') rest ?_ (hafter.trans ha) (hlines.trans hl)
      rw [hpre, List.append_assoc]
  | outOfRange ha hl => exact .outOfRange (hafter.trans ha) (hlines.trans hl)

/-- A tree inside, and then the lines behind it. -/
theorem Outcome.start {tag name : Str} {tags lines : List Str}
    {r : Except ReadError (List XmlObj × List Str)}
    {next : List XmlObj × List Str → Except ReadError (List XmlObj × List Str)}
    (h : Outcome name (tag :: tags) lines r)
    (hnext : ∀ embedded rest, rest.length ≤ lines.length →
      Outcome tag tags rest.tail (next (embedded, rest))) :
    Outcome tag tags (['<'] :: name :: lines) (r >>= next) := by
  have hd : dangles isTagMark (['<'] :: name :: lines) = dangles isTagMark lines :=
    dangles_taken rfl name lines
  cases h with
  | outOfRange ha hl => exact .outOfRange (afterTags_start.trans ha) (hd.trans hl)
  | ended embedded ha hl =>
      have hrest := hnext embedded [] (Nat.zero_le _)
      rw [List.tail_nil] at hrest
      change Outcome tag tags _ (next (embedded, []))
      generalize next (embedded, []) = r at hrest ⊢
      cases hrest with
      | ended content _ _ => exact .ended content (afterTags_start.trans ha) (hd.trans hl)
      | closed content pre rest hpre => simp at hpre
      | outOfRange _ hl' => cases hl'
  | closed embedded pre rest hpre ha hl =>
      have hlen : (name :: rest).length ≤ lines.length := by simp [hpre]
      have hrest := hnext embedded (name :: rest) hlen
      rw [List.tail_cons] at hrest
      have hlines : ['<'] :: name :: lines = (['<'] :: name :: pre ++ [name]) ++ rest := by
        simp [hpre]
      rw [hlines]
      refine hrest.of_append ?_ ?_
      · rw [← hlines, afterTags_start, ha]
      · rw [← hlines, hd, hl]

theorem readtreeLoop_outcome {fuel : Nat} {tag : Str} {lines : List Str} (tags : List Str)
    (content : List XmlObj) (h : lines.length < fuel) :
    Outcome tag tags lines (readtreeLoop fuel tag lines content) := by
  induction fuel generalizing tag lines tags content with
  | zero => cases h
  | succ fuel ih =>
      cases lines with
      | nil => exact .ended content rfl rfl
      | cons line lines =>
          rw [List.length_cons] at h
          rw [readtreeLoop.eq_def]
          dsimp only
          split
          · next hline =>
              subst hline
              cases lines with
              | nil => exact .outOfRange rfl rfl
              | cons name lines =>
                  rw [List.length_cons] at h
                  have hd : dangles isTagMark ([['>'], name] ++ lines) = dangles isTagMark lines :=
                    dangles_taken rfl name lines
                  dsimp only
                  split
                  · next hname =>
                      subst hname
                      exact .closed content [['>']] lines rfl
                        (afterTags_stop.trans (by rw [if_pos rfl])) hd
                  · next hname =>
                      exact (ih tags content (by omega)).of_append
                        (afterTags_stop.trans (by rw [if_neg hname]; rfl)) hd
          · next hstop =>
              split
              · next hline =>
                  subst hline
                  cases lines with
                  | nil => exact .outOfRange rfl rfl
                  | cons name lines =>
                      rw [List.length_cons] at h
                      refine (ih (tag :: tags) [] (by omega)).start fun embedded rest hrest => ?_
                      have htail : rest.tail.length ≤ rest.length := by simp
                      exact ih tags _ (by omega)
              · next hstart =>
                  have hmark : isTagMark line = false := by simp [isTagMark, hstop, hstart]
                  have hd : dangles isTagMark ([line] ++ lines) = dangles isTagMark lines :=
                    dangles_cons hmark lines
                  split
                  · exact (ih tags _ (by omega)).of_append (afterTags_text hmark) hd
                  · exact (ih tags _ (by omega)).of_append (afterTags_text hmark) hd

theorem halxmlReadtree_outcome (tag : Str) (lines : List Str) (content : List XmlObj) :
    Outcome tag [] lines (halxmlReadtree tag lines content) :=
  readtreeLoop_outcome [] content (Nat.lt_succ_self _)

theorem halxmlReadtree_iff (tag : Str) (lines : List Str) (content : List XmlObj) :
    (∃ r, halxmlReadtree tag lines content = .ok r) ↔
      dangles isTagMark lines = false ∨ (afterTags [tag] lines).isSome = true := by
  have hout := halxmlReadtree_outcome tag lines content
  generalize halxmlReadtree tag lines content = r at hout ⊢
  cases hout with
  | ended content ha hl => simp [hl]
  | closed content pre rest hpre ha hl => simp [ha, afterTags]
  | outOfRange ha hl => simp [ha, hl]

theorem halxmlReadtree_ends (tag : Str) (lines : List Str) (content : List XmlObj) :
    halxmlReadtree tag lines content ≠ .error .outOfFuel := by
  have hout := halxmlReadtree_outcome tag lines content
  intro h
  rw [h] at hout
  cases hout

/-! ## Reading the facts -/

theorem countFacts_outcome (lines : List Str) :
    dangles isStart lines = false ∧ (∃ size, countFacts lines = .ok size) ∨
      dangles isStart lines = true ∧ countFacts lines = .error .outOfRange := by
  fun_induction countFacts lines with
  | case1 => exact Or.inl ⟨rfl, 0, rfl⟩
  | case2 => exact Or.inr ⟨rfl, rfl⟩
  | case3 line h => exact Or.inl ⟨by simpa [dangles, isStart] using h, 0, rfl⟩
  | case4 name lines ih =>
      rw [dangles_taken rfl]
      refine ih.imp (And.imp_right ?_) (And.imp_right ?_)
      · rintro ⟨size, hsize⟩
        exact ⟨if name = "fact".toList then size + 1 else size, by rw [hsize]; rfl⟩
      · intro herror
        rw [herror]
        rfl
  | case5 line name lines h ih =>
      have hline : isStart line = false := by simpa [isStart] using h
      rwa [dangles_cons hline]

theorem inFact_start (name : Str) (lines : List Str) : inFact [] (['<'] :: name :: lines) =
    inFact (if name = "fact".toList then [name] else []) lines := by
  rw [inFact, if_pos rfl]

theorem inFact_other {line : Str} (h : isStart line = false) (lines : List Str) :
    inFact [] (line :: lines) = inFact [] lines := by
  cases lines with
  | nil => rfl
  | cons name lines => rw [inFact, if_neg (by simpa [isStart] using h)]

theorem mem_of_inFact : (lines : List Str) → inFact [] lines = true → "fact".toList ∈ lines
  | [], h => by cases h
  | [_], h => by cases h
  | line :: name :: lines, h => by
      rw [inFact] at h
      split at h
      · split at h
        · next hname => simp [hname]
        · exact List.mem_cons_of_mem _ (List.mem_cons_of_mem _ (mem_of_inFact lines h))
      · exact List.mem_cons_of_mem _ (mem_of_inFact (name :: lines) h)

/-- In a fact, the lines in front of it make no difference. -/
theorem dangles_of_inFact {lines : List Str} (h : inFact [] lines = true) (pre : List Str) :
    dangles isTagMark (pre ++ lines) = dangles isTagMark lines := by
  obtain ⟨before, inner, rfl⟩ := List.append_of_mem (mem_of_inFact lines h)
  have hname : isTagMark "fact".toList = false := rfl
  rw [← List.append_assoc, dangles_append_cons hname, dangles_append_cons hname]

/-- Whether the mark that is read last has a line behind it. Outside a fact only `<` is a mark. -/
def LastMarked (lines : List Str) : Prop :=
  dangles (if inFact [] lines then isTagMark else isStart) lines = false

/-- Lines outside a fact are left out. -/
theorem lastMarked_append {pre lines : List Str}
    (hin : inFact [] (pre ++ lines) = inFact [] lines)
    (hd : dangles isStart (pre ++ lines) = dangles isStart lines) :
    LastMarked (pre ++ lines) ↔ LastMarked lines := by
  rw [LastMarked, LastMarked, hin]
  cases h : inFact [] lines with
  | true => rw [if_pos rfl, dangles_of_inFact h]
  | false => rw [if_neg Bool.false_ne_true, hd]

theorem lastMarked_of_noEnd {lines : List Str} (h : afterTags ["fact".toList] lines = none) :
    LastMarked (['<'] :: "fact".toList :: lines) ↔ dangles isTagMark lines = false := by
  have hin : inFact [] (['<'] :: "fact".toList :: lines) = true := by
    rw [inFact_start, if_pos rfl, inFact_eq, h]
  rw [LastMarked, if_pos hin, dangles_taken rfl]

/-- What comes out of the second loop. -/
def FactsOutcome (lines : List Str) (r : Except ReadError (List XmlObj)) : Prop :=
  LastMarked lines ∧ (∃ facts, r = .ok facts) ∨ ¬ LastMarked lines ∧ r = .error .outOfRange

theorem FactsOutcome.congr {lines lines' : List Str} {r : Except ReadError (List XmlObj)}
    (h : FactsOutcome lines' r) (hmarked : LastMarked lines ↔ LastMarked lines') :
    FactsOutcome lines r := by
  rw [FactsOutcome, hmarked]
  exact h

/-- A fact, and then the lines behind it. -/
theorem Outcome.facts {lines : List Str} {r : Except ReadError (List XmlObj × List Str)}
    {next : List Str → Except ReadError (List XmlObj)} (h : Outcome "fact".toList [] lines r)
    (hnext : ∀ rest, rest.length ≤ lines.length → FactsOutcome rest (next rest)) :
    FactsOutcome (['<'] :: "fact".toList :: lines) (do
      let (content, rest) ← r
      let facts ← next rest.tail
      return XmlObj.list "fact".toList content :: facts) := by
  cases h with
  | outOfRange ha hl =>
      have hmarked : ¬ LastMarked (['<'] :: "fact".toList :: lines) := by
        rw [lastMarked_of_noEnd ha, hl]
        exact Bool.noConfusion
      exact Or.inr ⟨hmarked, rfl⟩
  | ended content ha hl =>
      refine Or.inl ⟨(lastMarked_of_noEnd ha).mpr hl, ?_⟩
      rcases hnext [] (Nat.zero_le _) with ⟨-, facts, hfacts⟩ | ⟨hnot, -⟩
      · exact ⟨.list "fact".toList content :: facts, by simp [bind, Except.bind, hfacts]; rfl⟩
      · exact (hnot rfl).elim
  | closed content pre rest hpre ha hl =>
      have hlines : ['<'] :: "fact".toList :: lines =
          (['<'] :: "fact".toList :: pre ++ ["fact".toList]) ++ rest := by
        simp [hpre]
      have hmarked : LastMarked (['<'] :: "fact".toList :: lines) ↔ LastMarked rest := by
        rw [hlines]
        refine lastMarked_append ?_ ?_
        · rw [← hlines, inFact_start, if_pos rfl, inFact_eq, ha, afterTags]
        · rw [← hlines, dangles_taken rfl, hpre, dangles_append_cons rfl]
      have hlen : rest.length ≤ lines.length := by
        rw [hpre, List.length_append, List.length_cons]
        omega
      refine FactsOutcome.congr ?_ hmarked
      rcases hnext rest hlen with ⟨hrest, facts, hfacts⟩ | ⟨hrest, herror⟩
      · exact Or.inl ⟨hrest, .list "fact".toList content :: facts, by
          simp [bind, Except.bind, hfacts]; rfl⟩
      · exact Or.inr ⟨hrest, by simp [bind, Except.bind, herror]⟩

theorem readfactsLoop_outcome {fuel : Nat} {lines : List Str} (h : lines.length < fuel) :
    FactsOutcome lines (readfactsLoop fuel lines) := by
  induction fuel generalizing lines with
  | zero => cases h
  | succ fuel ih =>
      cases lines with
      | nil => exact Or.inl ⟨rfl, [], rfl⟩
      | cons line lines =>
          rw [List.length_cons] at h
          rw [readfactsLoop.eq_def]
          dsimp only
          split
          · next hline =>
              subst hline
              cases lines with
              | nil => exact Or.inr ⟨by simp [LastMarked, inFact, dangles, isStart], rfl⟩
              | cons name lines =>
                  rw [List.length_cons] at h
                  dsimp only
                  split
                  · next hname =>
                      subst hname
                      refine (halxmlReadtree_outcome _ lines []).facts ?_
                      exact fun rest hrest => ih (by omega)
                  · next hname =>
                      refine (ih (by omega)).congr (@lastMarked_append [['<'], name] lines ?_ ?_)
                      · exact (inFact_start name lines).trans (by rw [if_neg hname])
                      · exact dangles_taken rfl name lines
          · next hline =>
              have hstart : isStart line = false := by simpa [isStart] using hline
              exact (ih (by omega)).congr (@lastMarked_append [line] lines
                (inFact_other hstart lines) (dangles_cons hstart lines))

theorem halxmlReadfacts_eq (prestr : Str) :
    halxmlReadfacts prestr = readfactsLines (splitLines prestr) := rfl

theorem readfactsLines_iff (lines : List Str) : readfactsLines lines ≠ .error .outOfFuel ∧
    ((∃ facts, readfactsLines lines = .ok facts) ↔
      dangles isStart lines = false ∧
        (inFact [] lines = true → dangles isTagMark lines = false)) := by
  rw [readfactsLines]
  rcases countFacts_outcome lines with ⟨hd, size, hsize⟩ | ⟨hd, herror⟩
  · have hmarked : LastMarked lines ↔
        (inFact [] lines = true → dangles isTagMark lines = false) := by
      rw [LastMarked]
      cases inFact [] lines <;> simp [hd]
    have hloop := readfactsLoop_outcome (Nat.lt_succ_self lines.length)
    rw [FactsOutcome, hmarked] at hloop
    rw [hsize, hd]
    change readfactsLoop (lines.length + 1) lines ≠ _ ∧
      ((∃ facts, readfactsLoop (lines.length + 1) lines = .ok facts) ↔ _)
    rcases hloop with ⟨hm, facts, hfacts⟩ | ⟨hm, herror⟩
    · simpa [hfacts] using hm
    · simp [herror, hm]
  · simp [herror, hd, bind, Except.bind]

theorem not_dangles_iff {p : Str → Bool} {lines : List Str} :
    dangles p lines = false ↔ Even (lines.rtakeWhile p).length := by
  rw [← Bool.not_eq_true, dangles_iff, Nat.not_odd_iff_even]

/-- The readers always end. They read only existing elements exactly where the marks at the end of
the lines are even in number, or nothing is read of them. -/
theorem halxml_reads_iff (tag : Str) (lines : List Str) (content : List XmlObj) :
    (halxmlReadtree tag lines content ≠ .error .outOfFuel ∧
      ((∃ r, halxmlReadtree tag lines content = .ok r) ↔
        Even (lines.rtakeWhile isTagMark).length ∨ (afterTags [tag] lines).isSome = true)) ∧
    readfactsLines lines ≠ .error .outOfFuel ∧
      ((∃ facts, readfactsLines lines = .ok facts) ↔
        Even (lines.rtakeWhile isStart).length ∧
          (inFact [] lines = true → Even (lines.rtakeWhile isTagMark).length)) := by
  have hfacts := readfactsLines_iff lines
  rw [not_dangles_iff, not_dangles_iff] at hfacts
  refine ⟨⟨halxmlReadtree_ends tag lines content, ?_⟩, hfacts⟩
  rw [halxmlReadtree_iff, not_dangles_iff]

/-- A file that ends inside an end tag. -/
theorem halxml_truncated : (¬ ∃ r, halxmlReadtree "fact".toList [['>']] [] = .ok r) ∧
    ¬ ∃ facts, halxmlReadfacts (halxmlOrdertags "<fact></".toList) = .ok facts := by
  constructor
  · rintro ⟨r, h⟩
    cases h
  · rintro ⟨facts, h⟩
    cases h

end Freehal.Grammar2012
