import Freehal.Grammar2012.Shape

/-!
# Lines and the reader

What `halxml_ordertags` makes of tags, texts and blanks, and one equation of `halxml_readtree` for
each kind of line.
-/

namespace Freehal.Grammar2012

/-! ## Lines -/

@[simp] theorem splitLines_nil : splitLines [] = [] := rfl

@[simp] theorem splitLines_newline (prestr : Str) :
    splitLines ('\n' :: prestr) = [] :: splitLines prestr := rfl

theorem splitLines_line {line : Str} (h : '\n' ∉ line) (prestr : Str) :
    splitLines (line ++ '\n' :: prestr) = line :: splitLines prestr := by
  induction line with
  | nil => rfl
  | cons c line ih =>
      have hc : c ≠ '\n' := fun he => h (by simp [he])
      have hline : '\n' ∉ line := fun he => h (by simp [he])
      rw [List.cons_append, splitLines, if_neg hc, ih hline]

/-! ## Words and blanks -/

theorem Spaced.of_cons {c : Char} {text : Str} (h : Spaced (c :: text)) : Spaced text :=
  ⟨fun d hd => h.space d (by simp [hd]), h.single.of_cons, fun hd => h.lt (by simp [hd]),
    fun hd => h.gt (by simp [hd])⟩

theorem Spaced.newline {text : Str} (h : Spaced text) : '\n' ∉ text := fun hmem =>
  absurd (h.space '\n' hmem (by decide)) (by decide)

theorem isBlank_space : isBlank ' ' = true := by decide

/-- What is written after `prev`: a text stays what it is. -/
theorem orderFrom_spaced {text : Str} (h : Spaced text) {prev : Char} {space : Bool}
    (hprev : prev ≠ '<') (hhead : text.head? = some ' ' → space = false ∧ prev ≠ '>')
    (rest : Str) :
    orderFrom prev space (text ++ rest) =
      text ++ orderFrom (text.getLast?.getD prev) (text.getLast?.elim space isBlank) rest := by
  induction text generalizing prev space with
  | nil => rfl
  | cons c text ih =>
      have hlt : c ≠ '<' := fun he => h.lt (by simp [he])
      have hgt : c ≠ '>' := fun he => h.gt (by simp [he])
      have hnext : text.head? = some ' ' → isBlank c = false ∧ c ≠ '>' := by
        intro hd
        refine ⟨?_, hgt⟩
        cases text with
        | nil => cases hd
        | cons d text =>
            cases hd
            by_contra hc
            have hc : c = ' ' := h.space c (by simp) (by simpa using hc)
            exact (List.isChain_cons_cons.mp h.single).1 ⟨hc, rfl⟩
      have hstep : orderFrom prev space (c :: (text ++ rest)) =
          c :: orderFrom c (isBlank c) (text ++ rest) := by
        rw [orderFrom]
        by_cases hb : isBlank c = true
        · obtain rfl := h.space c (by simp) hb
          obtain ⟨rfl, hp⟩ := hhead rfl
          simp [hb, hp]
        · rw [if_neg hb, orderChar, if_neg hgt, if_neg hprev, if_neg hlt]
          simp [hb]
      rw [List.cons_append, hstep, ih h.of_cons hlt hnext, List.getLast?_cons]
      cases text.getLast? <;> rfl

/-! ## Tags -/

/-- The lines after a tag. -/
def linesFrom (indata : Str) : List Str := splitLines (orderFrom '>' false indata)

@[simp] theorem linesFrom_nil : linesFrom [] = [] := rfl

theorem orderFrom_gt (prev : Char) (space : Bool) (rest : Str) :
    orderFrom prev space ('>' :: rest) = '\n' :: orderFrom '>' false rest := by
  rw [orderFrom, if_neg (by decide), orderChar, if_pos rfl]
  rfl

theorem orderFrom_lt {prev : Char} (h : prev ≠ '<') (space : Bool) (rest : Str) :
    orderFrom prev space ('<' :: rest) =
      (if prev ≠ '>' then ['\n'] else []) ++ orderFrom '<' false rest := by
  rw [orderFrom, if_neg (by decide), orderChar, if_neg (by decide), if_neg h, if_pos rfl]

theorem orderFrom_open {name : Str} (h : TagName name) (rest : Str) :
    orderFrom '<' false (name ++ '>' :: rest) =
      '<' :: '\n' :: (name ++ '\n' :: orderFrom '>' false rest) := by
  obtain ⟨hspaced, c, name, rfl, hblank, hslash⟩ := h
  have hlt : c ≠ '<' := fun he => hspaced.lt (by simp [he])
  have hgt : c ≠ '>' := fun he => hspaced.gt (by simp [he])
  have hnext : name.head? = some ' ' → false = false ∧ c ≠ '>' := fun _ => ⟨rfl, hgt⟩
  rw [List.cons_append, orderFrom, if_neg (by simp [hblank]), orderChar, if_neg hgt, if_pos rfl,
    if_neg hslash, orderFrom_spaced hspaced.of_cons hlt hnext, orderFrom_gt]
  rfl

theorem orderFrom_close {name : Str} (h : TagName name) (rest : Str) :
    orderFrom '<' false ('/' :: name ++ '>' :: rest) =
      '>' :: '\n' :: (name ++ '\n' :: orderFrom '>' false rest) := by
  have hnext : name.head? = some ' ' → false = false ∧ '/' ≠ '>' := fun _ => ⟨rfl, by decide⟩
  rw [List.cons_append, orderFrom, if_neg (by decide), orderChar, if_neg (by decide), if_pos rfl,
    if_pos rfl, orderFrom_spaced h.spaced (by decide) hnext, orderFrom_gt]
  rfl

theorem linesFrom_open {name : Str} (h : TagName name) (rest : Str) :
    linesFrom ('<' :: name ++ '>' :: rest) = ['<'] :: name :: linesFrom rest := by
  rw [linesFrom, List.cons_append, orderFrom_lt (by decide), if_neg (by simp), List.nil_append,
    orderFrom_open h]
  exact (@splitLines_line ['<'] (by decide) _).trans
    (congrArg _ (splitLines_line h.spaced.newline _))

theorem linesFrom_close {name : Str} (h : TagName name) (rest : Str) :
    linesFrom ('<' :: ('/' :: name ++ '>' :: rest)) = ['>'] :: name :: linesFrom rest := by
  rw [linesFrom, orderFrom_lt (by decide), if_neg (by simp), List.nil_append,
    orderFrom_close h]
  exact (@splitLines_line ['>'] (by decide) _).trans
    (congrArg _ (splitLines_line h.spaced.newline _))

/-- Blanks before a tag are an empty line. -/
theorem linesFrom_blanks {blanks : Str} (h : ∀ c ∈ blanks, isBlank c) (rest : Str) :
    linesFrom ('\n' :: blanks ++ '<' :: rest) = [] :: linesFrom ('<' :: rest) := by
  have hblanks : ∀ prev, isBlank prev = true →
      orderFrom prev true (blanks ++ '<' :: rest) = '\n' :: orderFrom '<' false rest := by
    intro prev hprev
    induction blanks generalizing prev with
    | nil =>
        have hlt : prev ≠ '<' := by
          rintro rfl
          cases hprev
        have hgt : prev ≠ '>' := by
          rintro rfl
          cases hprev
        rw [List.nil_append, orderFrom_lt hlt, if_pos hgt]
        rfl
    | cons c blanks ih =>
        have hc := h c (by simp)
        rw [List.cons_append, orderFrom, if_pos hc]
        exact ih (fun d hd => h d (by simp [hd])) c hc
  have hstart : orderFrom '>' false ('\n' :: blanks ++ '<' :: rest) =
      orderFrom '\n' true (blanks ++ '<' :: rest) := rfl
  rw [linesFrom, hstart, hblanks '\n' (by decide), linesFrom, orderFrom_lt (by decide)]
  rfl

/-- A text in front of a tag is a line of its own. -/
theorem linesFrom_text {text : Str} (h : Spaced text)
    (hhead : ∃ c rest, text = c :: rest ∧ isBlank c = false)
    (hlast : ∃ c, text.getLast? = some c ∧ isBlank c = false) (rest : Str) :
    linesFrom (text ++ '<' :: rest) = text :: linesFrom ('<' :: rest) := by
  obtain ⟨c, hc, hblank⟩ := hlast
  have hmem := List.mem_of_getLast? hc
  have hlt : c ≠ '<' := fun he => h.lt (he ▸ hmem)
  have hgt : c ≠ '>' := fun he => h.gt (he ▸ hmem)
  have hstart : text.head? = some ' ' → false = false ∧ '>' ≠ '>' := by
    obtain ⟨d, rest, rfl, hd⟩ := hhead
    rintro ⟨⟩
    cases hd
  rw [linesFrom, orderFrom_spaced h (by decide) hstart, hc]
  simp only [Option.getD_some]
  rw [orderFrom_lt hlt, if_pos hgt, List.singleton_append, splitLines_line h.newline, linesFrom,
    orderFrom_lt (by decide)]
  rfl

/-! ## Fuel -/

theorem readtreeLoop_length {fuel : Nat} {tagName : Str} {lines : List Str}
    {content content' : List XmlObj} {rest : List Str}
    (h : readtreeLoop fuel tagName lines content = .ok (content', rest)) :
    rest.length ≤ lines.length := by
  induction fuel generalizing tagName lines content content' rest with
  | zero => cases h
  | succ fuel ih =>
      cases lines with
      | nil =>
          cases h
          exact Nat.le_refl _
      | cons line lines =>
          rw [readtreeLoop.eq_def] at h
          dsimp only at h
          rw [List.length_cons]
          split at h
          · cases lines with
            | nil => cases h
            | cons name lines =>
                dsimp only at h
                split at h
                · cases h
                  exact Nat.le_succ _
                · have := ih h
                  simp only [List.length_cons]
                  omega
          · split at h
            · cases lines with
              | nil => cases h
              | cons name lines =>
                  dsimp only at h
                  cases hsub : readtreeLoop fuel name lines [] with
                  | error e =>
                      rw [hsub] at h
                      cases h
                  | ok r =>
                      rw [hsub] at h
                      have hinner := ih hsub
                      have houter := ih h
                      simp only [List.length_tail, List.length_cons] at houter ⊢
                      omega
            · split at h
              · have := ih h
                omega
              · have := ih h
                omega

/-- More fuel than lines makes no difference. -/
theorem readtreeLoop_fuel {fuel fuel' : Nat} {tagName : Str} {lines : List Str}
    (content : List XmlObj) (h : lines.length < fuel) (h' : lines.length < fuel') :
    readtreeLoop fuel tagName lines content = readtreeLoop fuel' tagName lines content := by
  induction fuel generalizing fuel' tagName lines content with
  | zero => omega
  | succ fuel ih =>
      obtain ⟨fuel', rfl⟩ := Nat.exists_eq_succ_of_ne_zero (show fuel' ≠ 0 by omega)
      cases lines with
      | nil => rfl
      | cons line lines =>
          rw [List.length_cons] at h h'
          rw [readtreeLoop.eq_def, readtreeLoop.eq_def (fuel' + 1)]
          dsimp only
          split
          · cases lines with
            | nil => rfl
            | cons name lines =>
                rw [List.length_cons] at h h'
                dsimp only
                rw [@ih fuel' tagName lines content (by omega) (by omega)]
          · split
            · cases lines with
              | nil => rfl
              | cons name lines =>
                  rw [List.length_cons] at h h'
                  dsimp only
                  rw [@ih fuel' name lines [] (by omega) (by omega)]
                  cases hsub : readtreeLoop fuel' name lines [] with
                  | error e => rfl
                  | ok r =>
                      have hlen := readtreeLoop_length hsub
                      have htail : r.2.tail.length ≤ r.2.length := by simp
                      exact ih _ (by omega) (by omega)
            · rw [@ih fuel' tagName lines (content ++ readText tagName line) (by omega) (by omega),
                @ih fuel' tagName lines content (by omega) (by omega)]

/-! ## The kinds of lines -/

section

variable {tagName : Str} {lines rest : List Str} {content : List XmlObj}

@[simp] theorem readtree_blank :
    halxmlReadtree tagName ([] :: lines) content = halxmlReadtree tagName lines content := rfl

theorem readtree_close :
    halxmlReadtree tagName (['>'] :: tagName :: lines) content = .ok (content, tagName :: lines) := by
  rw [halxmlReadtree, readtreeLoop, if_pos rfl]
  exact if_pos rfl

theorem readtree_open {name : Str} {embedded : List XmlObj}
    (h : halxmlReadtree name lines [] = .ok (embedded, rest)) (hne : embedded ≠ []) :
    halxmlReadtree tagName (['<'] :: name :: lines) content =
      halxmlReadtree tagName rest.tail (content ++ [.list name embedded]) := by
  have hlen := readtreeLoop_length h
  have hinner : readtreeLoop (lines.length + 1 + 1) name lines [] = .ok (embedded, rest) := by
    rw [← h]
    exact readtreeLoop_fuel [] (by omega) (by omega)
  have htail : rest.tail.length ≤ rest.length := by simp
  have hpos := List.length_pos_iff.mpr hne
  have hrest : readtreeLoop (lines.length + 1 + 1) tagName rest.tail
      (content ++ [.list name embedded]) =
        halxmlReadtree tagName rest.tail (content ++ [.list name embedded]) :=
    readtreeLoop_fuel _ (by omega) (by omega)
  rw [← hrest, halxmlReadtree, readtreeLoop.eq_def]
  dsimp only [List.length_cons]
  rw [if_neg (by decide), if_pos rfl, hinner]
  simp [bind, Except.bind, hpos]

theorem readtree_text {line : Str} (hne : line ≠ []) (hlt : '<' ∉ line) (hgt : '>' ∉ line) :
    halxmlReadtree tagName (line :: lines) content =
      halxmlReadtree tagName lines (content ++ readText tagName line) := by
  have hlt' : line ≠ ['<'] := by
    rintro rfl
    simp at hlt
  have hgt' : line ≠ ['>'] := by
    rintro rfl
    simp at hgt
  rw [halxmlReadtree, readtreeLoop.eq_def]
  dsimp only [List.length_cons]
  rw [if_neg hgt', if_neg hlt', if_pos (List.length_pos_iff.mpr hne)]
  rfl

end

end Freehal.Grammar2012
