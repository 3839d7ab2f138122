import Freehal.Xml.Lemmas.Printed

/-!
# What the reader can build

Every token of a stream has single spaces only, and a tag has no closing bracket in it. So the
facts that are read from any stream are trees as `XmlTree.Read` describes them.
-/

namespace Freehal.Xml

/-! ## Tokens -/

/-- A token of a stream: a tag is the bracket and a name. -/
structure Line (line : JString) : Prop where
  spaced : Spaced line
  gt : line.head? = some (jchar '<') → jchar '>' ∉ line

theorem Spaced.nil : Spaced [] := ⟨fun _ hc => (by cases hc), List.isChain_nil⟩

theorem Spaced.append_singleton {text : JString} {c : JChar} (h : Spaced text)
    (hc : isBlank c = true → c = jchar ' ' ∧ text.getLast? ≠ some (jchar ' ')) :
    Spaced (text ++ [c]) := by
  refine ⟨?_, ?_⟩
  · intro d hd hb
    rcases List.mem_append.mp hd with hd | hd
    · exact h.space d hd hb
    · obtain rfl := List.mem_singleton.mp hd
      exact (hc hb).1
  · rw [List.isChain_append]
    refine ⟨h.single, List.isChain_singleton _, ?_⟩
    rintro x hx y hy ⟨rfl, rfl⟩
    cases hy
    exact (hc (by decide)).2 hx

/-- The variables of `next` between two characters. -/
structure Scan.Ok (st : Scan) : Prop where
  line : Line st.predata
  space : st.predata.getLast? = some (jchar ' ') → st.isSpace = true
  tag : st.predata.head? = some (jchar '<') → st.inTagname = some true

theorem Scan.Ok.start : Scan.start.Ok :=
  ⟨⟨Spaced.nil, fun h => (by cases h)⟩, fun h => (by cases h), fun h => (by cases h)⟩

theorem head_append_singleton {text : JString} {c d : JChar} (h : (text ++ [c]).head? = some d) :
    text.head? = some d ∨ text = [] ∧ c = d := by
  cases text with
  | nil => exact Or.inr ⟨rfl, Option.some.inj h⟩
  | cons e text => exact Or.inl h

theorem Scan.Ok.blank {st : Scan} (h : st.Ok) : st.blank.Ok := by
  unfold Scan.blank
  by_cases hadd : (!st.isSpace && decide (st.predata.length > 0)) = true
  · rw [if_pos hadd]
    simp only [Bool.and_eq_true, Bool.not_eq_true', decide_eq_true_eq] at hadd
    have hne : st.predata ≠ [] := List.length_pos_iff.mp hadd.2
    have hhead : (st.predata ++ [jchar ' ']).head? = some (jchar '<') →
        st.predata.head? = some (jchar '<') :=
      fun hd => (head_append_singleton hd).resolve_right fun hnil => hne hnil.1
    refine ⟨⟨?_, ?_⟩, fun _ => rfl, fun hd => h.tag (hhead hd)⟩
    · apply h.line.spaced.append_singleton
      refine fun _ => ⟨rfl, fun hlast => ?_⟩
      rw [h.space hlast] at hadd
      cases hadd.1
    · intro hd hmem
      rcases List.mem_append.mp hmem with hmem | hmem
      · exact h.line.gt (hhead hd) hmem
      · exact absurd (List.mem_singleton.mp hmem) (by decide)
  · rw [if_neg hadd]
    exact ⟨h.line, fun _ => rfl, h.tag⟩

/-- A character that does not end the token. -/
theorem Scan.Ok.char {st : Scan} (h : st.Ok) {num : JChar} (hb : isBlank num = false)
    {tag : Bool} (htag : st.inTagname.getD (num = jchar '<') = tag) (hstop : num ≠ stop tag) :
    Scan.Ok ⟨st.predata ++ [num], some tag, false⟩ := by
  have hnum : num ≠ jchar ' ' := by
    rintro rfl
    cases hb
  have hspaced : Spaced (st.predata ++ [num]) :=
    h.line.spaced.append_singleton fun hb' => by rw [hb] at hb'; cases hb'
  have hlt : (st.predata ++ [num]).head? = some (jchar '<') → tag = true := by
    intro hd
    rcases head_append_singleton hd with hd | ⟨hnil, rfl⟩
    · rw [h.tag hd] at htag
      exact htag.symm
    · cases tag with
      | true => rfl
      | false => exact absurd rfl hstop
  refine ⟨⟨hspaced, ?_⟩, ?_, ?_⟩
  · intro hd hmem
    obtain rfl := hlt hd
    rcases List.mem_append.mp hmem with hmem | hmem
    · rcases head_append_singleton hd with hd | ⟨hnil, -⟩
      · exact h.line.gt hd hmem
      · rw [hnil] at hmem
        cases hmem
    · exact hstop (List.mem_singleton.mp hmem).symm
  · intro hlast
    rw [List.getLast?_concat] at hlast
    exact absurd (Option.some.inj hlast) hnum
  · intro hd
    rw [hlt hd]

theorem scan_ok (text : JString) {st : Scan} (h : st.Ok) :
    (∀ t r, scan text st = .token t r → Line t) ∧
      ∀ st', scan text st = .ended st' → Line st'.predata := by
  induction text generalizing st with
  | nil =>
      refine ⟨fun t r he => (by cases he), ?_⟩
      intro st' he
      cases he
      exact h.line
  | cons num text ih =>
      rw [scan]
      split
      · exact ih h.blank
      · case isFalse hb =>
          have hb : isBlank num = false := by simpa using hb
          have hended : ∀ rest, (∀ t r, Scanned.token st.predata rest = .token t r → Line t) ∧
              ∀ st', Scanned.token st.predata rest = .ended st' → Line st'.predata := by
            intro rest
            refine ⟨?_, fun st' he => (by cases he)⟩
            intro t r he
            cases he
            exact h.line
          dsimp only
          split
          · exact hended _
          · case isFalse htag =>
              split
              · exact hended _
              · case isFalse htext =>
                  apply ih
                  refine h.char hb rfl ?_
                  generalize st.inTagname.getD (num = jchar '<') = tag at htag htext
                  cases tag with
                  | true => simpa [stop] using htag
                  | false => simpa [stop] using htext

theorem next_line (it : XmlStreamIterator) : Line it.next.1 := by
  obtain ⟨htoken, hended⟩ := scan_ok it.fillBuffer.buffer Scan.Ok.start
  rw [XmlStreamIterator.next_eq]
  split
  · case h_1 t r hscan => exact htoken t r hscan
  · case h_2 st hscan => exact hended st hscan

theorem take_lines (n : Nat) (it : XmlStreamIterator) : ∀ line ∈ it.take n, Line line := by
  induction n generalizing it with
  | zero => exact fun _ hmem => (by cases hmem)
  | succ n ih =>
      rw [XmlStreamIterator.take]
      split
      · intro line hmem
        rcases List.mem_cons.mp hmem with rfl | hmem
        · exact next_line _
        · exact ih _ line hmem
      · exact fun _ hmem => (by cases hmem)

theorem tokens_lines (pieces : List JString) : ∀ line ∈ tokens pieces, Line line :=
  take_lines _ _

/-! ## Words -/

theorem splitFrom_words (separator : Bool) {word : JString} (hword : word.all isWordChar = true)
    (text : JString) : ∀ w ∈ splitFrom separator word text, w.all isWordChar = true := by
  induction text generalizing separator word with
  | nil =>
      intro w hw
      rw [List.mem_singleton.mp hw]
      exact hword
  | cons num text ih =>
      rw [splitFrom]
      split
      · case isTrue hnum =>
          apply ih
          simp [hword, hnum]
      · split
        · exact ih true hword
        · intro w hw
          rcases List.mem_cons.mp hw with rfl | hw
          · exact hword
          · exact ih true rfl w hw

theorem splitWords_words (text : JString) :
    ∀ w ∈ splitWords text, w.all isWordChar = true := by
  unfold splitWords
  split
  · case isTrue hall =>
      intro w hw
      rw [List.mem_singleton.mp hw]
      exact hall
  · intro w hw
    exact splitFrom_words false rfl text w ((List.rdropWhile_prefix _ _).subset hw)

theorem readAll_readText (line : JString) : ReadAll (readText line) := by
  unfold readText
  split
  · exact trivial
  · rw [ReadAll, XmlTree.Read]
    exact ⟨splitWords_words _, trivial⟩

/-! ## Trees -/

theorem readAll_readTreeLoop (fuel : Nat) (tagname : JString) {lines : List JString}
    (hlines : ∀ line ∈ lines, Line line) {tree : List XmlTree} (htree : ReadAll tree) :
    ReadAll (readTreeLoop fuel tagname lines tree).1 := by
  induction fuel generalizing tagname lines tree with
  | zero => exact htree
  | succ fuel ih =>
      match lines, hlines with
      | [], _ => exact htree
      | [line], _ => exact htree
      | line :: next :: lines, hlines =>
          have hline := hlines line (by simp)
          have hnext : ∀ line ∈ next :: lines, Line line :=
            fun line hmem => hlines line (List.mem_cons_of_mem _ hmem)
          rw [readTreeLoop.eq_def]
          dsimp only
          split
          · split
            · exact htree
            · exact ih tagname hnext htree
          · case isFalse hclose =>
              split
              · case isTrue hopen =>
                  obtain ⟨name, rfl⟩ := List.isPrefixOf_iff_prefix.mp hopen
                  by_cases htext : name = jtext "text"
                  · rw [if_pos (by exact htext)]
                    exact ih tagname hnext htree
                  · rw [if_neg (by exact htext)]
                    have hrest := (readTreeLoop_suffix fuel name (next :: lines) []).subset
                    refine ih tagname (fun line hmem => hnext line (hrest hmem)) ?_
                    split
                    · case isTrue hpos =>
                        refine readAll_append.mpr ⟨htree, ?_⟩
                        rw [ReadAll, XmlTree.Read]
                        refine ⟨⟨⟨hline.spaced.of_cons, ?_, ?_, htext⟩,
                          List.length_pos_iff.mp hpos, ih name hnext trivial⟩, trivial⟩
                        · exact fun hmem => hline.gt rfl (List.mem_cons_of_mem _ hmem)
                        · intro hslash
                          apply hclose
                          cases name with
                          | nil => cases hslash
                          | cons c name =>
                              cases hslash
                              rfl
                    · exact htree
              · split
                · exact ih tagname hnext (readAll_append.mpr ⟨htree, readAll_readText line⟩)
                · exact ih tagname hnext htree

/-- A fact that was read. -/
def ReadFact (x : XmlTree) : Prop :=
  ∃ content, x = .list (jtext "fact") content ∧ ReadAll content

theorem readFact_readFactsLoop (fuel : Nat) {lines : List JString}
    (hlines : ∀ line ∈ lines, Line line) : ∀ x ∈ readFactsLoop fuel lines, ReadFact x := by
  induction fuel generalizing lines with
  | zero => exact fun _ hmem => (by cases hmem)
  | succ fuel ih =>
      cases lines with
      | nil => exact fun _ hmem => (by cases hmem)
      | cons line lines =>
          have hnext : ∀ line ∈ lines, Line line :=
            fun line hmem => hlines line (List.mem_cons_of_mem _ hmem)
          rw [readFactsLoop]
          split
          · intro x hx
            rcases List.mem_cons.mp hx with rfl | hx
            · exact ⟨_, rfl, readAll_readTreeLoop _ _ hnext trivial⟩
            · have hrest := (readTreeLoop_suffix (lines.length + 1) (jtext "fact") lines []).subset
              exact ih (fun line hmem => hnext line (hrest hmem)) x hx
          · exact ih hnext

theorem readFact_readXmlFacts (pieces : List JString) :
    ∀ x ∈ readXmlFacts pieces, ReadFact x :=
  readFact_readFactsLoop _ (tokens_lines pieces)

end Freehal.Xml
