import Freehal.Grammar2012.Lemmas.Reader

/-!
# Facts that are printed and read again

The lines of a printed tree, and what the reader makes of them.
-/

namespace Freehal.Grammar2012

/-! ## The lines of a tree -/

def blankLine (secondlevel : Nat) : List Str := if secondlevel = 0 then [[]] else []

mutual
/-- The ordered tags of a printed tree. -/
def XmlObj.lines (secondlevel : Nat) : XmlObj → List Str
  | .text text => [text]
  | .list name content =>
      let secondlevel := if name = "clause".toList then 0 else secondlevel
      ['<'] :: name :: (linesAll secondlevel content ++ blankLine secondlevel ++ [['>'], name])

def linesAll (secondlevel : Nat) : List XmlObj → List Str
  | [] => []
  | x :: content =>
      blankLine secondlevel ++ x.lines (secondlevel + 1) ++ linesAll secondlevel content
end

theorem isBlank_of_isTrimmed {c : Char} (h : isTrimmed c = false) : isBlank c = false := by
  simp only [isTrimmed, Bool.or_eq_false_iff] at h
  simp [isBlank, h.1.1.1.1.1, h.1.1.1.1.2, h.1.1.1.2, h.1.1.2]

theorem PlainText.ends {text : Str} (h : PlainText text) :
    (∃ c rest, text = c :: rest ∧ isBlank c = false) ∧
      ∃ c, text.getLast? = some c ∧ isBlank c = false := by
  have hleft : text.dropWhile isTrimmed = text := by
    have hsuffix : (text.dropWhile isTrimmed).length ≤ text.length :=
      (List.dropWhile_suffix _).length_le
    have hpre : (trim text).length ≤ (text.dropWhile isTrimmed).length :=
      (List.rdropWhile_prefix _ _).length_le
    rw [h.trimmed] at hpre
    exact (List.dropWhile_suffix _).eq_of_length (by omega)
  have hright : text.rdropWhile isTrimmed = text := by
    have := h.trimmed
    rwa [trim, hleft] at this
  refine ⟨?_, ?_⟩
  · obtain ⟨c, rest, rfl⟩ := List.exists_cons_of_ne_nil h.ne_nil
    have hc := List.dropWhile_eq_self_iff.mp hleft (by simp)
    exact ⟨c, rest, rfl, isBlank_of_isTrimmed (by simpa using hc)⟩
  · have hc := List.rdropWhile_eq_self_iff.mp hright h.ne_nil
    exact ⟨_, List.getLast?_eq_some_getLast h.ne_nil, isBlank_of_isTrimmed (by simpa using hc)⟩

theorem blank_indent (level : Nat) : ∀ c ∈ indent level, isBlank c := by
  intro c hc
  rw [List.eq_of_mem_replicate hc]
  exact isBlank_space

theorem printXmlFrom_list (level secondlevel : Nat) {x : XmlObj} (h : x.isText = false) :
    ∃ r, x.printXmlFrom level secondlevel = '<' :: r := by
  cases x with
  | text text => cases h
  | list name content =>
      rw [XmlObj.printXmlFrom]
      simp only [List.cons_append]
      exact ⟨_, rfl⟩

/-- What stands behind an element of a list begins with a tag, unless the next one is a text. -/
theorem printContent_head {level secondlevel : Nat} (hlevel : secondlevel ≠ 0)
    {content : List XmlObj} (h : ∀ x ∈ content.head?, x.isText = false) (r : Str) :
    ∃ r', printContent level secondlevel content ++ '<' :: r = '<' :: r' := by
  cases content with
  | nil => exact ⟨r, rfl⟩
  | cons x content =>
      obtain ⟨r', hr⟩ := printXmlFrom_list level (secondlevel + 1) (h x rfl)
      rw [printContent, hr]
      simp [hlevel]

/-- A list that is printed on one line, and a list with its elements on lines of their own. -/
theorem printXmlFrom_inline {level secondlevel : Nat} {name : Str} (content : List XmlObj)
    (hclause : name ≠ "clause".toList) (hlevel : secondlevel ≠ 0) (rest : Str) :
    (XmlObj.list name content).printXmlFrom level secondlevel ++ rest =
      '<' :: name ++ '>' :: (printContent level secondlevel content ++
        '<' :: ('/' :: name ++ '>' :: rest)) := by
  rw [XmlObj.printXmlFrom]
  simp only [if_neg hclause, if_neg hlevel]
  simp

theorem printXmlFrom_indented (level : Nat) {secondlevel : Nat} {name : Str}
    (content : List XmlObj) (hlevel : name = "clause".toList ∨ secondlevel = 0) :
    ∃ level', ∀ rest, (XmlObj.list name content).printXmlFrom level secondlevel ++ rest =
      '<' :: name ++ '>' :: ('\n' :: printContent level' 0 content ++ (indent level' ++
        '<' :: ('/' :: name ++ '>' :: rest))) := by
  refine ⟨if name = "clause".toList then level + 1 else level, ?_⟩
  intro rest
  have hzero : (if name = "clause".toList then 0 else secondlevel) = 0 := by
    rcases hlevel with hclause | hlevel
    · exact if_pos hclause
    · rw [hlevel, ite_self]
  rw [XmlObj.printXmlFrom]
  simp only [hzero]
  simp

theorem lines_inline {secondlevel : Nat} {name : Str} (content : List XmlObj)
    (hclause : name ≠ "clause".toList) (hlevel : secondlevel ≠ 0) :
    (XmlObj.list name content).lines secondlevel =
      ['<'] :: name :: (linesAll secondlevel content ++ [['>'], name]) := by
  rw [XmlObj.lines]
  simp only [if_neg hclause, blankLine, if_neg hlevel, List.append_nil]

theorem lines_indented {secondlevel : Nat} {name : Str} (content : List XmlObj)
    (hlevel : name = "clause".toList ∨ secondlevel = 0) :
    (XmlObj.list name content).lines secondlevel =
      ['<'] :: name :: (linesAll 0 content ++ [[], ['>'], name]) := by
  have hzero : (if name = "clause".toList then 0 else secondlevel) = 0 := by
    rcases hlevel with hclause | hlevel
    · exact if_pos hclause
    · rw [hlevel, ite_self]
  rw [XmlObj.lines]
  simp only [hzero, blankLine]
  simp

mutual
theorem linesFrom_printXml (level secondlevel : Nat) (x : XmlObj) (tagName rest : Str)
    (hs : x.Shaped) (hn : x.Normal tagName)
    (hroot : ∀ content, x = .list "text".toList content → secondlevel ≠ 0)
    (hrest : x.isText = true → ∃ r, rest = '<' :: r) :
    linesFrom (x.printXmlFrom level secondlevel ++ rest) =
      x.lines secondlevel ++ linesFrom rest := by
  match x, hs, hn, hroot with
  | .text text, hs, hn, _ =>
      obtain ⟨r, rfl⟩ := hrest rfl
      rw [XmlObj.Shaped] at hs
      exact linesFrom_text hs.toSpaced hs.ends.1 hs.ends.2 r
  | .list name content, hs, hn, hroot =>
      rw [XmlObj.Shaped] at hs
      rw [XmlObj.Normal] at hn
      obtain ⟨-, hsep, hall⟩ := hs
      obtain ⟨hname, hnormal⟩ := hn
      by_cases hlevel : name = "clause".toList ∨ secondlevel = 0
      · have htag : name ≠ "text".toList := by
          rintro rfl
          rcases hlevel with hclause | hzero
          · exact absurd hclause (by decide)
          · exact hroot content rfl hzero
        obtain ⟨level', hprint⟩ := printXmlFrom_indented level content hlevel
        rw [hprint, linesFrom_open hname,
          linesFrom_printIndented level' content name _ hall hnormal htag level',
          linesFrom_close hname, lines_indented content hlevel]
        simp
      · obtain ⟨hclause, hzero⟩ := not_or.mp hlevel
        rw [printXmlFrom_inline content hclause hzero, linesFrom_open hname,
          linesFrom_printContent level secondlevel content name _ hall hsep hnormal hzero,
          linesFrom_close hname, lines_inline content hclause hzero]
        simp

theorem linesFrom_printContent (level secondlevel : Nat) (content : List XmlObj)
    (tagName r : Str) (hs : ShapedAll content) (hsep : Separated content)
    (hn : NormalAll tagName content) (hlevel : secondlevel ≠ 0) :
    linesFrom (printContent level secondlevel content ++ '<' :: r) =
      linesAll secondlevel content ++ linesFrom ('<' :: r) := by
  match content, hs, hsep, hn with
  | [], _, _, _ => rfl
  | x :: content, hs, hsep, hn =>
      rw [ShapedAll] at hs
      rw [NormalAll] at hn
      have hrest : x.isText = true →
          ∃ r', printContent level secondlevel content ++ '<' :: r = '<' :: r' := by
        intro htext
        apply printContent_head hlevel
        intro y hy
        by_contra hytext
        exact List.isChain_cons.mp hsep |>.1 y hy ⟨htext, by simpa using hytext⟩
      have htail := linesFrom_printContent level secondlevel content tagName r hs.2
        hsep.of_cons hn.2 hlevel
      have hhead := linesFrom_printXml level (secondlevel + 1) x tagName _ hs.1 hn.1
        (fun _ _ => Nat.succ_ne_zero secondlevel) hrest
      rw [printContent, linesAll, if_neg hlevel, if_neg hlevel, blankLine, if_neg hlevel,
        List.nil_append, List.append_nil, List.append_assoc, hhead, htail, List.nil_append,
        List.append_assoc]

/-- The elements are lists: the name of the list is none for texts. -/
theorem linesFrom_printIndented (level : Nat) (content : List XmlObj) (tagName r : Str)
    (hs : ShapedAll content) (hn : NormalAll tagName content)
    (htag : tagName ≠ "text".toList) (k : Nat) :
    linesFrom ('\n' :: printContent level 0 content ++ (indent k ++ '<' :: r)) =
      linesAll 0 content ++ [] :: linesFrom ('<' :: r) := by
  match content, hs, hn with
  | [], _, _ => exact linesFrom_blanks (blank_indent k) r
  | x :: content, hs, hn =>
      rw [ShapedAll] at hs
      rw [NormalAll] at hn
      have hlist : x.isText = false := by
        cases x with
        | text text =>
            rw [XmlObj.Normal] at hn
            exact absurd hn.1.1 htag
        | list name content => rfl
      have htail := linesFrom_printIndented level content tagName r hs.2 hn.2 htag k
      have hhead := linesFrom_printXml level 1 x tagName
        ('\n' :: printContent level 0 content ++ (indent k ++ '<' :: r)) hs.1 hn.1
        (fun _ _ => Nat.one_ne_zero) (fun htext => absurd htext (by simp [hlist]))
      obtain ⟨r', hr'⟩ := printXmlFrom_list level 1 hlist
      have hblank := linesFrom_blanks (blank_indent (level + 1))
        (r' ++ ('\n' :: printContent level 0 content ++ (indent k ++ '<' :: r)))
      rw [← List.cons_append, ← hr', hhead, htail] at hblank
      rw [printContent, linesAll, if_pos rfl, if_pos rfl, blankLine, if_pos rfl]
      simpa using hblank
end

/-! ## Reading the lines -/

@[simp] theorem readtree_blankLine (secondlevel : Nat) (tagName : Str) (lines : List Str)
    (content : List XmlObj) : halxmlReadtree tagName (blankLine secondlevel ++ lines) content =
      halxmlReadtree tagName lines content := by
  unfold blankLine
  split <;> simp

theorem readText_plain {text : Str} (h : PlainText text) (hdefault : isDefault text = false)
    (hvalue : normalValue text = text) : readText "text".toList text = [.text text] := by
  simp [readText, hdefault, hvalue, h.trimmed]

mutual
theorem readtree_lines (secondlevel : Nat) (x : XmlObj) (tagName : Str) (lines : List Str)
    (content : List XmlObj) (hs : x.Shaped) (hn : x.Normal tagName) :
    halxmlReadtree tagName (x.lines secondlevel ++ lines) content =
      halxmlReadtree tagName lines (content ++ [x]) := by
  match x, hs, hn with
  | .text text, hs, hn =>
      rw [XmlObj.Shaped] at hs
      rw [XmlObj.Normal] at hn
      obtain ⟨rfl, hdefault, hvalue⟩ := hn
      have hline := @readtree_text "text".toList lines content text hs.ne_nil hs.lt hs.gt
      rwa [readText_plain hs hdefault hvalue] at hline
  | .list name embedded, hs, hn =>
      rw [XmlObj.Shaped] at hs
      rw [XmlObj.Normal] at hn
      obtain ⟨hne, -, hall⟩ := hs
      rw [XmlObj.lines, List.cons_append, List.cons_append, List.append_assoc, List.append_assoc]
      have hinner := readtree_linesAll (if name = "clause".toList then 0 else secondlevel) embedded
        name (blankLine (if name = "clause".toList then 0 else secondlevel) ++
          (['>'] :: name :: lines)) [] hall hn.2
      rw [readtree_blankLine, readtree_close, List.nil_append] at hinner
      exact readtree_open hinner hne

theorem readtree_linesAll (secondlevel : Nat) (embedded : List XmlObj) (tagName : Str)
    (lines : List Str) (content : List XmlObj) (hs : ShapedAll embedded)
    (hn : NormalAll tagName embedded) :
    halxmlReadtree tagName (linesAll secondlevel embedded ++ lines) content =
      halxmlReadtree tagName lines (content ++ embedded) := by
  match embedded, hs, hn with
  | [], _, _ => rw [linesAll, List.nil_append, List.append_nil]
  | x :: embedded, hs, hn =>
      rw [ShapedAll] at hs
      rw [NormalAll] at hn
      rw [linesAll, List.append_assoc, List.append_assoc, readtree_blankLine,
        readtree_lines (secondlevel + 1) x tagName _ content hs.1 hn.1,
        readtree_linesAll secondlevel embedded tagName lines _ hs.2 hn.2, List.append_assoc]
      rfl
end

/-- Counting the facts reads existing lines only. -/
def Counted (lines : List Str) : Prop := ∃ size, countFacts lines = .ok size

theorem Counted.line {line : Str} {lines : List Str} (hline : line ≠ ['<']) (h : Counted lines) :
    Counted (line :: lines) := by
  obtain ⟨size, hsize⟩ := h
  cases lines with
  | nil => exact ⟨0, by rw [countFacts, if_neg hline]⟩
  | cons name lines => exact ⟨size, by rw [countFacts, if_neg hline, hsize]⟩

theorem Counted.tag {lines : List Str} (name : Str) (h : Counted lines) :
    Counted (['<'] :: name :: lines) := by
  obtain ⟨size, hsize⟩ := h
  refine ⟨if name = "fact".toList then size + 1 else size, ?_⟩
  rw [countFacts, if_pos rfl, hsize]
  rfl

theorem Counted.blankLine {lines : List Str} (secondlevel : Nat) (h : Counted lines) :
    Counted (blankLine secondlevel ++ lines) := by
  unfold Grammar2012.blankLine
  split
  · exact h.line (by decide)
  · exact h

theorem ne_tag_of_not_mem {text : Str} (h : '<' ∉ text) : text ≠ ['<'] := by
  rintro rfl
  simp at h

mutual
theorem counted_lines (secondlevel : Nat) (x : XmlObj) (tagName : Str) {lines : List Str}
    (hs : x.Shaped) (hn : x.Normal tagName) (h : Counted lines) :
    Counted (x.lines secondlevel ++ lines) := by
  match x, hs, hn with
  | .text text, hs, _ =>
      rw [XmlObj.Shaped] at hs
      exact h.line (ne_tag_of_not_mem hs.lt)
  | .list name embedded, hs, hn =>
      rw [XmlObj.Shaped] at hs
      rw [XmlObj.Normal] at hn
      rw [XmlObj.lines, List.cons_append, List.cons_append, List.append_assoc, List.append_assoc]
      have hclose : Counted (['>'] :: name :: lines) :=
        (h.line (ne_tag_of_not_mem hn.1.spaced.lt)).line (by decide)
      exact (counted_linesAll _ embedded name hs.2.2 hn.2 (hclose.blankLine _)).tag name

theorem counted_linesAll (secondlevel : Nat) (embedded : List XmlObj) (tagName : Str)
    {lines : List Str} (hs : ShapedAll embedded) (hn : NormalAll tagName embedded)
    (h : Counted lines) : Counted (linesAll secondlevel embedded ++ lines) := by
  match embedded, hs, hn with
  | [], _, _ => exact h
  | x :: embedded, hs, hn =>
      rw [ShapedAll] at hs
      rw [NormalAll] at hn
      rw [linesAll, List.append_assoc, List.append_assoc]
      exact (counted_lines _ x tagName hs.1 hn.1
        (counted_linesAll secondlevel embedded tagName hs.2 hn.2 h)).blankLine _
end

/-! ## Facts -/

/-- The lines of some facts. An empty one is in front of each of them. -/
def factLines (facts : List XmlObj) : List Str := facts.flatMap fun x => [] :: x.lines 0

theorem linesFrom_facts {facts : List XmlObj} (h : ∀ x ∈ facts, x.Kept) :
    linesFrom ('\n' :: facts.flatMap XmlObj.printXml) = factLines facts := by
  induction facts with
  | nil => rfl
  | cons x facts ih =>
      obtain ⟨⟨content, rfl⟩, hs, hn⟩ := h x (by simp)
      have htail := ih fun y hy => h y (by simp [hy])
      have hhead := linesFrom_printXml 0 0 (.list "fact".toList content) []
        ('\n' :: facts.flatMap XmlObj.printXml) hs hn
        (fun _ he => absurd (XmlObj.list.inj he).1 (by decide)) (fun htext => by cases htext)
      obtain ⟨r, hr⟩ := printXmlFrom_list 0 0 (x := .list "fact".toList content) rfl
      have hcut : '<' :: (r ++ '\n' :: facts.flatMap XmlObj.printXml) =
          (XmlObj.list "fact".toList content).printXmlFrom 0 0 ++
            '\n' :: facts.flatMap XmlObj.printXml := by
        rw [hr]
        rfl
      have hblank := @linesFrom_blanks [] (by simp) (r ++ '\n' :: facts.flatMap XmlObj.printXml)
      rw [hcut, hhead, htail] at hblank
      simpa [XmlObj.printXml, factLines] using hblank

/-- The beginning of the text is as good as the end of a line. -/
theorem splitLines_ordertags {facts : List XmlObj} (h : ∀ x ∈ facts, x.Kept) :
    splitLines (halxmlOrdertags (facts.flatMap XmlObj.printXml)) = factLines facts := by
  rw [← linesFrom_facts h]
  cases facts with
  | nil => rfl
  | cons x facts =>
      obtain ⟨⟨content, rfl⟩, -, -⟩ := h x (by simp)
      obtain ⟨r, hr⟩ := printXmlFrom_list 0 0 (x := .list "fact".toList content) rfl
      rw [List.flatMap_cons, XmlObj.printXml, hr]
      rfl

theorem readfactsLoop_factLines {facts : List XmlObj} (h : ∀ x ∈ facts, x.Kept) {fuel : Nat}
    (hfuel : (factLines facts).length < fuel) :
    readfactsLoop fuel (factLines facts) = .ok facts := by
  induction facts generalizing fuel with
  | nil =>
      obtain ⟨fuel, rfl⟩ := Nat.exists_eq_succ_of_ne_zero (show fuel ≠ 0 by omega)
      rfl
  | cons x facts ih =>
      obtain ⟨⟨content, rfl⟩, hs, hn⟩ := h x (by simp)
      rw [XmlObj.Shaped] at hs
      rw [XmlObj.Normal] at hn
      have hlines : factLines (.list "fact".toList content :: facts) =
          [] :: ['<'] :: "fact".toList :: (linesAll 0 content ++
            ([] :: ['>'] :: "fact".toList :: factLines facts)) := by
        rw [factLines, List.flatMap_cons, lines_indented content (Or.inr rfl)]
        simp [factLines]
      have hread : halxmlReadtree "fact".toList (linesAll 0 content ++
          ([] :: ['>'] :: "fact".toList :: factLines facts)) [] =
            .ok (content, "fact".toList :: factLines facts) := by
        rw [readtree_linesAll 0 content _ _ [] hs.2.2 hn.2, readtree_blank, readtree_close,
          List.nil_append]
      rw [hlines] at hfuel ⊢
      simp only [List.length_cons, List.length_append] at hfuel
      obtain ⟨fuel, rfl⟩ := Nat.exists_eq_add_of_le (show 2 ≤ fuel by omega)
      have hrest : readfactsLoop fuel (factLines facts) = .ok facts :=
        ih (fun y hy => h y (by simp [hy])) (by omega)
      rw [Nat.add_comm, readfactsLoop, if_neg (by decide), readfactsLoop, if_pos rfl]
      dsimp only
      rw [if_pos rfl, hread]
      simp only [bind, Except.bind, List.tail_cons, hrest]
      rfl

theorem counted_factLines {facts : List XmlObj} (h : ∀ x ∈ facts, x.Kept) :
    Counted (factLines facts) := by
  induction facts with
  | nil => exact ⟨0, rfl⟩
  | cons x facts ih =>
      have hx := h x (by simp)
      have htail := ih fun y hy => h y (by simp [hy])
      exact (counted_lines 0 x [] hx.shaped hx.normal htail).line (by decide)

/-- Facts in the normal form of the reader are read as they were printed. -/
theorem reread_kept (facts : List XmlObj) (h : ∀ x ∈ facts, x.Kept) :
    reread facts = .ok facts := by
  obtain ⟨size, hsize⟩ := counted_factLines h
  rw [reread, halxmlReadfacts, splitLines_ordertags h]
  simp only [hsize, bind, Except.bind]
  exact readfactsLoop_factLines h (Nat.lt_succ_self _)

/-! ## Words, and values that are normalised -/

/-- A character within a word. -/
def isPlain (c : Char) : Bool := !isTrimmed c && c ≠ '<' && c ≠ '>'

theorem spaced_of_word {text : Str} (h : text.all isPlain = true) : Spaced text := by
  have hplain : ∀ c ∈ text, isTrimmed c = false ∧ c ≠ '<' ∧ c ≠ '>' := by
    intro c hc
    simpa [isPlain, and_assoc] using List.all_eq_true.mp h c hc
  have hblank : ∀ c ∈ text, isBlank c = false := fun c hc => isBlank_of_isTrimmed (hplain c hc).1
  refine ⟨?_, ?_, fun hc => (hplain _ hc).2.1 rfl, fun hc => (hplain _ hc).2.2 rfl⟩
  · intro c hc hb
    rw [hblank c hc] at hb
    cases hb
  · apply List.Pairwise.isChain
    apply List.pairwise_of_forall_mem_list
    rintro c hc d hd ⟨rfl, -⟩
    exact absurd (hblank _ hc) (by decide)

theorem plainText_of_word {text : Str} (hne : text ≠ []) (h : text.all isPlain = true) :
    PlainText text := by
  have htrim : ∀ c ∈ text, isTrimmed c = false := by
    intro c hc
    have := List.all_eq_true.mp h c hc
    simp only [isPlain, Bool.and_eq_true, Bool.not_eq_true'] at this
    exact this.1.1
  refine ⟨spaced_of_word h, hne, ?_⟩
  rw [trim, List.dropWhile_eq_self_iff.mpr, List.rdropWhile_eq_self_iff.mpr]
  · intro hne
    simp [htrim _ (List.getLast_mem hne)]
  · intro hlen
    simp [htrim _ (List.getElem_mem hlen)]

theorem tagName_of_word {c : Char} {name : Str} (h : (c :: name).all isPlain = true)
    (hc : c ≠ '/') : TagName (c :: name) := by
  refine ⟨spaced_of_word h, c, name, rfl, ?_, hc⟩
  have := List.all_eq_true.mp h c (by simp)
  simp only [isPlain, Bool.and_eq_true, Bool.not_eq_true'] at this
  exact isBlank_of_isTrimmed this.1.1

/-- A text in a list of a fact. -/
def simpleFact (name text : Str) : XmlObj :=
  .list "fact".toList [.list name [.list "text".toList [.text text]]]

theorem simpleFact_shaped {name text : Str} (h : PlainText text) :
    (simpleFact name text).Shaped := by
  simp [simpleFact, XmlObj.Shaped, ShapedAll, Separated, h]

theorem reread_simpleFact : reread [simpleFact "verb".toList "is".toList] =
    .ok [simpleFact "verb".toList "is".toList] := by
  refine reread_kept _ ?_
  intro x hx
  obtain rfl := List.mem_singleton.mp hx
  have hfact : TagName "fact".toList := tagName_of_word (by decide) (by decide)
  have hverb : TagName "verb".toList := tagName_of_word (by decide) (by decide)
  have htext : TagName "text".toList := tagName_of_word (by decide) (by decide)
  refine ⟨⟨_, rfl⟩, simpleFact_shaped (plainText_of_word (by decide) (by decide)), ?_⟩
  simp only [simpleFact, XmlObj.Normal, NormalAll, and_true]
  exact ⟨hfact, hverb, htext, trivial, by decide, by decide⟩

/-- The default of a truth value is left out, also where it is the text of a fact. -/
theorem reread_default : ¬ ∀ facts : List XmlObj, (∀ x ∈ facts, x.IsFact ∧ x.Shaped) →
    reread facts = .ok facts := by
  intro hall
  have hfacts := hall [simpleFact "truth".toList "00000".toList] (by
    intro x hx
    obtain rfl := List.mem_singleton.mp hx
    exact ⟨⟨_, rfl⟩, simpleFact_shaped (plainText_of_word (by decide) (by decide))⟩)
  have hread : reread [simpleFact "truth".toList "00000".toList] =
      .ok [.list "fact".toList []] := rfl
  rw [hread, Except.ok.injEq, List.cons.injEq, simpleFact, XmlObj.list.injEq] at hfacts
  exact absurd hfacts.1.2 (by simp)

end Freehal.Grammar2012
