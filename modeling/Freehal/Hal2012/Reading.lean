import Freehal.Hal2012.Export
import Freehal.Grammar2012.RoundTrip

/-!
# A printed record and the reader

The parts of a printed fact: their lines, and what the reader makes of them.
-/

namespace Freehal.Hal2012

open Grammar2012 (XmlObj TagName isBlank isTrimmed orderFrom orderChar linesFrom splitLines trim
  indent Counted)

/-! ## Texts -/

/-- A text without tags and line breaks. -/
structure Tagless (text : Str) : Prop where
  lt : '<' ∉ text
  gt : '>' ∉ text
  lf : '\n' ∉ text
  cr : '\r' ∉ text

theorem Tagless.of_cons {c : Char} {text : Str} (h : Tagless (c :: text)) : Tagless text :=
  ⟨fun hm => h.lt (by simp [hm]), fun hm => h.gt (by simp [hm]), fun hm => h.lf (by simp [hm]),
    fun hm => h.cr (by simp [hm])⟩

theorem Tagless.of_subset {text part : Str} (h : Tagless text) (hsub : part ⊆ text) :
    Tagless part :=
  ⟨fun hm => h.lt (hsub hm), fun hm => h.gt (hsub hm), fun hm => h.lf (hsub hm),
    fun hm => h.cr (hsub hm)⟩

theorem trim_subset (text : Str) : trim text ⊆ text :=
  fun _ h => (List.dropWhile_suffix _).subset ((List.rdropWhile_prefix _ _).subset h)

/-- Blanks as `halxml_ordertags` leaves them: one space for all that follow each other. -/
def collapse : Bool → Str → Str
  | _, [] => []
  | space, c :: text =>
      if isBlank c then (if space then [] else [' ']) ++ collapse true text
      else c :: collapse false text

theorem orderFrom_collapse {text : Str} (h : Tagless text) {prev : Char} {space : Bool}
    (hlt : prev ≠ '<') (hgt : prev ≠ '>') (rest : Str) :
    ∃ prev' space', prev' ≠ '<' ∧ prev' ≠ '>' ∧
      orderFrom prev space (text ++ rest) = collapse space text ++ orderFrom prev' space' rest := by
  induction text generalizing prev space with
  | nil => exact ⟨prev, space, hlt, hgt, rfl⟩
  | cons c text ih =>
      have hclt : c ≠ '<' := fun he => h.lt (by simp [he])
      have hcgt : c ≠ '>' := fun he => h.gt (by simp [he])
      obtain ⟨prev', space', h1, h2, heq⟩ := @ih h.of_cons c (isBlank c) hclt hcgt
      refine ⟨prev', space', h1, h2, ?_⟩
      rw [List.cons_append, orderFrom, collapse]
      by_cases hb : isBlank c = true
      · rw [hb] at heq
        rw [if_pos hb, if_pos hb, heq]
        cases space with
        | true => rfl
        | false => simp [hgt]
      · rw [if_neg hb, if_neg hb, orderChar, if_neg hcgt, if_neg hlt, if_neg hclt]
        rw [Bool.not_eq_true] at hb
        rw [hb] at heq
        rw [heq]
        rfl

theorem collapse_newline {text : Str} (h : Tagless text) (space : Bool) :
    '\n' ∉ collapse space text := by
  induction text generalizing space with
  | nil => simp [collapse]
  | cons c text ih =>
      have hc : ¬ '\n' = c := fun he => h.lf (by simp [← he])
      rw [collapse]
      split
      · cases space with
        | true => simpa using ih h.of_cons true
        | false => simpa using ih h.of_cons true
      · simpa [hc] using ih h.of_cons false

theorem trim_head {text : Str} : ∀ c ∈ (trim text).head?, isTrimmed c = false := by
  intro c hc
  obtain ⟨rest, hrest⟩ := List.rdropWhile_prefix isTrimmed (text.dropWhile isTrimmed)
  rw [trim] at hc
  cases hd : (text.dropWhile isTrimmed).rdropWhile isTrimmed with
  | nil =>
      rw [hd] at hc
      cases hc
  | cons d more =>
      rw [hd] at hc hrest
      cases hc
      have hne : text.dropWhile isTrimmed ≠ [] := by
        rw [← hrest]
        simp
      have hhead := List.head_dropWhile_not isTrimmed hne
      simpa [← hrest] using hhead

/-- The line of a text, if there is one. -/
def textLine (text : Str) : List Str := if text = [] then [] else [collapse false text]

theorem linesFrom_textLine {text : Str} (h : Tagless text)
    (hhead : ∀ c ∈ text.head?, isTrimmed c = false) (rest : Str) :
    linesFrom (text ++ '<' :: rest) = textLine text ++ linesFrom ('<' :: rest) := by
  cases text with
  | nil => rfl
  | cons c text =>
      have hb : isBlank c = false := Grammar2012.isBlank_of_isTrimmed (hhead c rfl)
      have hclt : c ≠ '<' := fun he => h.lt (by simp [he])
      have hcgt : c ≠ '>' := fun he => h.gt (by simp [he])
      obtain ⟨prev', space', h1, h2, heq⟩ :=
        @orderFrom_collapse _ h.of_cons c false hclt hcgt ('<' :: rest)
      have hstart : orderFrom '>' false (c :: (text ++ '<' :: rest)) =
          c :: orderFrom c false (text ++ '<' :: rest) := by
        rw [orderFrom, if_neg (by simp [hb]), orderChar, if_neg hcgt, if_neg (by decide),
          if_neg hclt]
        rfl
      have hline : collapse false (c :: text) = c :: collapse false text := by
        rw [collapse, if_neg (by simp [hb])]
      have hnewline := collapse_newline h false
      rw [hline] at hnewline
      rw [linesFrom, List.cons_append, hstart, heq, Grammar2012.orderFrom_lt h1, if_pos h2,
        textLine, if_neg (by simp), hline, linesFrom, Grammar2012.orderFrom_lt (by decide)]
      exact Grammar2012.splitLines_line hnewline _

/-! ## Parts of a tree -/

/-- A list in a printed tree: its lines behind its name, and what is read from them. -/
structure Part where
  tree : XmlObj
  name : Str
  inner : List Str
  embedded : List XmlObj
  isList : tree.isText = false
  print : ∀ level rest, linesFrom (tree.printXmlFrom level 1 ++ rest) =
    ['<'] :: name :: (inner ++ linesFrom rest)
  read : ∀ fuel rest, inner.length < fuel →
    readtreeLoop fuel name (inner ++ rest) [] = .ok (embedded, name :: rest)
  counted : ∀ rest, Counted rest → Counted (inner ++ rest)

def Part.back (p : Part) : XmlObj := .list p.name p.embedded

/-- The lines of some parts. An empty one is in front of each of them. -/
def partLines (parts : List Part) : List Str :=
  parts.flatMap fun p => [] :: ['<'] :: p.name :: p.inner

theorem partLines_cons (p : Part) (parts : List Part) (rest : List Str) :
    partLines (p :: parts) ++ rest =
      [] :: ['<'] :: p.name :: (p.inner ++ (partLines parts ++ rest)) := by
  simp [partLines]

theorem linesFrom_parts (level k : Nat) (parts : List Part) (r : Str) :
    linesFrom ('\n' :: Grammar2012.printContent level 0 (parts.map Part.tree) ++
        (indent k ++ '<' :: r)) = partLines parts ++ [] :: linesFrom ('<' :: r) := by
  induction parts with
  | nil => exact Grammar2012.linesFrom_blanks (Grammar2012.blank_indent k) r
  | cons p parts ih =>
      have hprint := p.print level
        ('\n' :: Grammar2012.printContent level 0 (parts.map Part.tree) ++ (indent k ++ '<' :: r))
      obtain ⟨r', hr'⟩ := Grammar2012.printXmlFrom_list level 1 p.isList
      have hblank := Grammar2012.linesFrom_blanks (Grammar2012.blank_indent (level + 1))
        (r' ++ ('\n' :: Grammar2012.printContent level 0 (parts.map Part.tree) ++
          (indent k ++ '<' :: r)))
      rw [← List.cons_append, ← hr', hprint, ih] at hblank
      rw [partLines_cons, List.map_cons, Grammar2012.printContent, if_pos rfl, if_pos rfl]
      simpa using hblank

theorem length_partLines {parts : List Part} : 3 * parts.length ≤ (partLines parts).length ∧
    ∀ p ∈ parts, 3 * parts.length + p.inner.length ≤ (partLines parts).length := by
  induction parts with
  | nil => exact ⟨Nat.zero_le _, by simp⟩
  | cons p parts ih =>
      have hlen : (partLines (p :: parts)).length =
          p.inner.length + 3 + (partLines parts).length := by
        simp [partLines]
        omega
      rw [hlen, List.length_cons]
      refine ⟨by omega, fun q hq => ?_⟩
      rcases List.mem_cons.mp hq with rfl | hq
      · omega
      · have := ih.2 q hq
        omega

/-- Each part takes an empty line and a tag. -/
theorem readtreeLoop_parts {parts : List Part} {fuel : Nat} {tagName : Str} {rest : List Str}
    {content : List XmlObj} (h : ∀ p ∈ parts, p.inner.length < fuel) :
    readtreeLoop (fuel + 2 * parts.length) tagName (partLines parts ++ rest) content =
      readtreeLoop fuel tagName rest (content ++ parts.map Part.back) := by
  induction parts generalizing content with
  | nil => simp [partLines]
  | cons p parts ih =>
      have hfuel : fuel + 2 * (p :: parts).length = fuel + 2 * parts.length + 1 + 1 := by
        rw [List.length_cons]
        omega
      have hread := p.read (fuel + 2 * parts.length) (partLines parts ++ rest)
        (by have := h p List.mem_cons_self; omega)
      rw [hfuel, partLines_cons, readtreeLoop, if_neg (by decide), if_neg (by decide),
        if_neg (by simp), readtreeLoop, if_neg (by decide), if_pos rfl]
      simp only [hread, bind, Except.bind, List.tail_cons]
      rw [ih fun q hq => h q (List.mem_cons_of_mem _ hq)]
      simp [Part.back]

theorem readfactLoop_parts {parts : List Part} {fuel : Nat} {rest : List Str}
    {content : List XmlObj} (h : ∀ p ∈ parts, p.inner.length < fuel) :
    readfactLoop (fuel + 2 * parts.length) (partLines parts ++ rest) content =
      readfactLoop fuel rest (content ++ parts.map Part.back) := by
  induction parts generalizing content with
  | nil => simp [partLines]
  | cons p parts ih =>
      have hfuel : fuel + 2 * (p :: parts).length = fuel + 2 * parts.length + 1 + 1 := by
        rw [List.length_cons]
        omega
      have hread := p.read (fuel + 2 * parts.length) (partLines parts ++ rest)
        (by have := h p List.mem_cons_self; omega)
      rw [hfuel, partLines_cons, readfactLoop, if_neg (by decide), if_neg (by decide),
        readfactLoop, if_neg (by decide), if_pos rfl]
      simp only [hread, bind, Except.bind, List.tail_cons]
      rw [ih fun q hq => h q (List.mem_cons_of_mem _ hq)]
      simp [Part.back]

theorem counted_parts {parts : List Part} {rest : List Str} (h : Counted rest) :
    Counted (partLines parts ++ rest) := by
  induction parts with
  | nil => exact h
  | cons p parts ih =>
      rw [partLines_cons]
      exact ((p.counted _ ih).tag p.name).line (by decide)

/-! ## Texts and clauses as parts -/

theorem readtreeLoop_close (fuel : Nat) (tagName : Str) (rest : List Str)
    (content : List XmlObj) : readtreeLoop (fuel + 1) tagName (['>'] :: tagName :: rest) content =
      .ok (content, tagName :: rest) := by
  rw [readtreeLoop, if_pos rfl]
  exact if_pos rfl

theorem readtreeLoop_blank (fuel : Nat) (tagName : Str) (rest : List Str)
    (content : List XmlObj) : readtreeLoop (fuel + 1) tagName ([] :: rest) content =
      readtreeLoop fuel tagName rest content := rfl

theorem readtreeLoop_text {fuel : Nat} {tagName line : Str} {rest : List Str}
    {content : List XmlObj} (h : line ≠ ['<'] ∧ line ≠ ['>'] ∧ 0 < line.length) :
    readtreeLoop (fuel + 1) tagName (line :: rest) content =
      readtreeLoop fuel tagName rest (content ++ [.text (trim line)]) := by
  rw [readtreeLoop.eq_def]
  dsimp only
  rw [if_neg h.2.1, if_neg h.1, if_pos h.2.2]

theorem collapse_mem {space : Bool} {text : Str} {c : Char} (h : c ∈ collapse space text) :
    c = ' ' ∨ c ∈ text := by
  induction text generalizing space with
  | nil => cases h
  | cons d text ih =>
      rw [collapse] at h
      split at h
      · rcases List.mem_append.mp h with h | h
        · cases space with
          | true => cases h
          | false => exact Or.inl (List.mem_singleton.mp h)
        · exact (ih h).imp_right (List.mem_cons_of_mem _)
      · rcases List.mem_cons.mp h with rfl | h
        · exact Or.inr List.mem_cons_self
        · exact (ih h).imp_right (List.mem_cons_of_mem _)

/-- What is read back from a text. -/
def readBack (text : Str) : List XmlObj := (textLine (trim text)).map fun line => .text (trim line)

theorem textLine_ne {text : Str} (h : Tagless text)
    (hhead : ∀ c ∈ text.head?, isTrimmed c = false) :
    ∀ line ∈ textLine text, line ≠ ['<'] ∧ line ≠ ['>'] ∧ 0 < line.length := by
  intro line hline
  cases text with
  | nil => cases hline
  | cons c text =>
      rw [textLine, if_neg (by simp), List.mem_singleton] at hline
      subst hline
      have hmem : ∀ d ∈ collapse false (c :: text), d ≠ '<' ∧ d ≠ '>' := by
        intro d hd
        rcases collapse_mem hd with rfl | hd
        · decide
        · exact ⟨fun he => h.lt (he ▸ hd), fun he => h.gt (he ▸ hd)⟩
      have hb : isBlank c = false := Grammar2012.isBlank_of_isTrimmed (hhead c rfl)
      refine ⟨fun he => ?_, fun he => ?_, ?_⟩
      · rw [he] at hmem
        exact (hmem '<' (by simp)).1 rfl
      · rw [he] at hmem
        exact (hmem '>' (by simp)).2 rfl
      · rw [collapse, if_neg (by simp [hb])]
        simp

section

variable {name text : Str}

theorem linesFrom_textTree (hname : TagName name) (hclause : name ≠ "clause".toList)
    (h : Tagless text) (level : Nat) (rest : Str) :
    linesFrom ((textTree name text).printXmlFrom level 1 ++ rest) =
      ['<'] :: name :: (textLine (trim text) ++ [['>'], name] ++ linesFrom rest) := by
  have hprint := @Grammar2012.printXmlFrom_inline level 1 name [.text (trim text)] hclause
    (by decide) rest
  have hcontent : Grammar2012.printContent level 1 [.text (trim text)] = trim text := by
    simp [Grammar2012.printContent, XmlObj.printXmlFrom]
  rw [textTree, hprint, hcontent, Grammar2012.linesFrom_open hname,
    linesFrom_textLine (h.of_subset (trim_subset text)) trim_head,
    Grammar2012.linesFrom_close hname]
  simp

theorem readtreeLoop_textTree (h : Tagless text) (fuel : Nat) (rest : List Str)
    (hfuel : (textLine (trim text) ++ [['>'], name]).length < fuel) :
    readtreeLoop fuel name (textLine (trim text) ++ [['>'], name] ++ rest) [] =
      .ok (readBack text, name :: rest) := by
  have hne := textLine_ne (h.of_subset (trim_subset text)) trim_head
  obtain ⟨fuel, rfl⟩ : ∃ k, fuel = k + 1 + 1 := ⟨fuel - 2, by simp at hfuel; omega⟩
  rw [readBack]
  rw [textLine] at hne ⊢
  by_cases hnil : trim text = []
  · rw [if_pos hnil]
    exact readtreeLoop_close (fuel + 1) name rest []
  · rw [if_neg hnil] at hne ⊢
    have hline := hne _ (List.mem_singleton.mpr rfl)
    exact (readtreeLoop_text hline).trans (readtreeLoop_close fuel name rest _)

theorem counted_textTree (hname : TagName name) (h : Tagless text) (rest : List Str)
    (hrest : Counted rest) : Counted (textLine (trim text) ++ [['>'], name] ++ rest) := by
  have hclose : Counted ([['>'], name] ++ rest) := by
    have hname' : name ≠ ['<'] := Grammar2012.ne_tag_of_not_mem hname.spaced.lt
    exact (hrest.line hname').line (by decide)
  have hne := textLine_ne (h.of_subset (trim_subset text)) trim_head
  rw [List.append_assoc]
  rw [textLine] at hne ⊢
  split
  · exact hclose
  · rename_i hnil
    rw [if_neg hnil] at hne
    exact hclose.line (hne _ (List.mem_singleton.mpr rfl)).1

/-- A text of the record. -/
def textPart (name text : Str) (hname : TagName name) (hclause : name ≠ "clause".toList)
    (h : Tagless text) : Part where
  tree := textTree name text
  name := name
  inner := textLine (trim text) ++ [['>'], name]
  embedded := readBack text
  isList := rfl
  print := linesFrom_textTree hname hclause h
  read := readtreeLoop_textTree h
  counted := counted_textTree hname h

end

theorem tagName_clause : TagName "clause".toList :=
  Grammar2012.tagName_of_word (by decide) (by decide)

section

variable (parts : List Part)

theorem linesFrom_clause (level : Nat) (rest : Str) :
    linesFrom ((XmlObj.list "clause".toList (parts.map Part.tree)).printXmlFrom level 1 ++ rest) =
      ['<'] :: "clause".toList ::
        (partLines parts ++ [[], ['>'], "clause".toList] ++ linesFrom rest) := by
  obtain ⟨level', hprint⟩ :=
    @Grammar2012.printXmlFrom_indented level 1 "clause".toList (parts.map Part.tree) (Or.inl rfl)
  rw [hprint, Grammar2012.linesFrom_open tagName_clause, linesFrom_parts,
    Grammar2012.linesFrom_close tagName_clause]
  simp

theorem readtreeLoop_clause (fuel : Nat) (rest : List Str)
    (hfuel : (partLines parts ++ [[], ['>'], "clause".toList]).length < fuel) :
    readtreeLoop fuel "clause".toList
        (partLines parts ++ [[], ['>'], "clause".toList] ++ rest) [] =
      .ok (parts.map Part.back, "clause".toList :: rest) := by
  obtain ⟨hlen, hinner⟩ := @length_partLines parts
  rw [List.length_append] at hfuel
  simp only [List.length_cons, List.length_nil] at hfuel
  obtain ⟨more, rfl⟩ : ∃ more, fuel = more + 1 + 1 + 2 * parts.length :=
    ⟨fuel - 2 - 2 * parts.length, by omega⟩
  have hall : ∀ p ∈ parts, p.inner.length < more + 1 + 1 := by
    intro p hp
    have := hinner p hp
    omega
  rw [List.append_assoc, readtreeLoop_parts hall, List.nil_append]
  exact (readtreeLoop_blank _ _ _ _).trans (readtreeLoop_close more _ rest _)

theorem counted_clause (rest : List Str) (hrest : Counted rest) :
    Counted (partLines parts ++ [[], ['>'], "clause".toList] ++ rest) := by
  rw [List.append_assoc]
  exact counted_parts (((hrest.line (by decide)).line (by decide)).line (by decide))

/-- A clause of the record. -/
def clausePart : Part where
  tree := .list "clause".toList (parts.map Part.tree)
  name := "clause".toList
  inner := partLines parts ++ [[], ['>'], "clause".toList]
  embedded := parts.map Part.back
  isList := rfl
  print := linesFrom_clause parts
  read := readtreeLoop_clause parts
  counted := counted_clause parts

end

/-! ## The fact -/

theorem tagName_fact : TagName "fact".toList :=
  Grammar2012.tagName_of_word (by decide) (by decide)

/-- A fact of parts is read back part by part. -/
theorem halxmlReadfacts_parts (parts : List Part) :
    halxmlReadfacts (Grammar2012.halxmlOrdertags
        (XmlObj.list "fact".toList (parts.map Part.tree)).printXml) =
      .ok [.list "fact".toList (parts.map Part.back)] := by
  obtain ⟨level', hprint⟩ :=
    @Grammar2012.printXmlFrom_indented 0 0 "fact".toList (parts.map Part.tree) (Or.inr rfl)
  have hprinted := hprint ['\n']
  have hlines : splitLines (Grammar2012.halxmlOrdertags
      (XmlObj.list "fact".toList (parts.map Part.tree)).printXml) =
        [] :: ['<'] :: "fact".toList :: (partLines parts ++ [[], ['>'], "fact".toList]) := by
    have hbegin : splitLines (Grammar2012.halxmlOrdertags
        (XmlObj.list "fact".toList (parts.map Part.tree)).printXml) =
          linesFrom ('\n' :: (XmlObj.list "fact".toList (parts.map Part.tree)).printXml) := by
      rw [XmlObj.printXml, hprinted]
      rfl
    have hblank := @Grammar2012.linesFrom_blanks [] (by simp)
      ("fact".toList ++ '>' :: ('\n' :: Grammar2012.printContent level' 0 (parts.map Part.tree) ++
        (indent level' ++ '<' :: ('/' :: "fact".toList ++ ['>', '\n']))))
    have hopen := Grammar2012.linesFrom_open tagName_fact
      ('\n' :: Grammar2012.printContent level' 0 (parts.map Part.tree) ++
        (indent level' ++ '<' :: ('/' :: "fact".toList ++ ['>', '\n'])))
    rw [hbegin, XmlObj.printXml, hprinted]
    refine hblank.trans (congrArg _ (hopen.trans ?_))
    rw [linesFrom_parts, Grammar2012.linesFrom_close tagName_fact]
    rfl
  obtain ⟨size, hsize⟩ : Counted ([] :: ['<'] :: "fact".toList ::
      (partLines parts ++ [[], ['>'], "fact".toList])) := by
    have hend : Counted [[], ['>'], "fact".toList] := ⟨0, by decide⟩
    exact ((counted_parts hend).tag _).line (by decide)
  obtain ⟨hlen, hinner⟩ := @length_partLines parts
  obtain ⟨more, hmore⟩ : ∃ more, (partLines parts).length + 5 = more + 1 + 1 + 2 * parts.length :=
    ⟨(partLines parts).length + 3 - 2 * parts.length, by omega⟩
  have hall : ∀ p ∈ parts, p.inner.length < more + 1 + 1 := by
    intro p hp
    have := hinner p hp
    omega
  have hread : readfactLoop ((partLines parts).length + 5)
      (partLines parts ++ [[], ['>'], "fact".toList]) [] =
        .ok (parts.map Part.back, ["fact".toList]) := by
    rw [hmore, readfactLoop_parts hall]
    rfl
  have hfuel : ([] :: ['<'] :: "fact".toList ::
      (partLines parts ++ [[], ['>'], "fact".toList])).length + 1 =
        (partLines parts).length + 5 + 1 + 1 := by
    simp
  rw [halxmlReadfacts, hlines]
  simp only [hsize, bind, Except.bind]
  rw [hfuel, readfactsLoop, if_neg (by decide), readfactsLoop, if_pos rfl]
  simp only [if_true, hread, bind, Except.bind, List.tail_cons]
  rfl

end Freehal.Hal2012
