import Freehal.Reasoning.Parts
import Freehal.Reasoning.TextMatch
import Freehal.Xml.RoundTrip

/-!
# Matching trees without empty texts

A premise that is matched with a fact gets from one part of the fact to the next one by its tags. It
returns when no text without words is reached.
-/

namespace Freehal.Reasoning

open Freehal.Xml (JString jtext XmlTree ReadAll)
open Freehal.Lib

/-! ## Trees of facts -/

theorem textFree_of_textObject {o : XmlObj} (h : o.isTextObject) : o.TextFree := by
  cases o with
  | word text => trivial
  | var text after => trivial
  | list cls name embedded =>
      simp only [XmlObj.isTextObject, Bool.and_eq_true, decide_eq_true_eq, List.all_eq_true] at h
      obtain ⟨⟨rfl, -⟩, hwords⟩ := h
      refine ⟨by decide, textFreeAll_iff.mpr fun e he => ?_⟩
      have := hwords e he
      cases e with
      | word text => trivial
      | var text after => trivial
      | list cls name inner => cases this

/-- What is embedded in the lists of a name. -/
def contentOf (tagname : JString) (embedded : List XmlTree) : List XmlTree :=
  embedded.flatMap fun
    | .list name inner => if name = tagname then inner else []
    | .text _ => []

/-- By tags that a premise does not ignore one gets to a list with one text, which has no words. -/
inductive EmptyTextReached : List XmlTree → Prop
  | here {embedded : List XmlTree} : embedded.filter (·.isText) = [.text []] →
      EmptyTextReached embedded
  | part {embedded : List XmlTree} {tagname : JString} : isIgnoredTree tagname = false →
      EmptyTextReached (contentOf tagname embedded) → EmptyTextReached embedded

mutual
/-- An object of a fact that was read, with or without synonyms in its texts. -/
def Shows : XmlTree → XmlObj → Prop
  | .text words, o => ∃ embedded, o = .list .xmlText (jtext "text") embedded ∧
      (embedded = [] ↔ words = []) ∧ ∀ e ∈ embedded, e.isTextObject
  | .list name trees, o => ∃ cls embedded, o = .list cls name embedded ∧ cls ≠ .xmlText ∧
      ShowsAll trees embedded

def ShowsAll : List XmlTree → List XmlObj → Prop
  | [], embedded => embedded = []
  | x :: trees, embedded => ∃ o rest, embedded = o :: rest ∧ Shows x o ∧ ShowsAll trees rest
end

theorem showsAll_append {trees trees' : List XmlTree} {embedded embedded' : List XmlObj}
    (h : ShowsAll trees embedded) (h' : ShowsAll trees' embedded') :
    ShowsAll (trees ++ trees') (embedded ++ embedded') := by
  induction trees generalizing embedded with
  | nil => exact h ▸ h'
  | cons x trees ih =>
      obtain ⟨o, rest, rfl, hx, hrest⟩ := h
      exact ⟨o, rest ++ embedded', rfl, hx, ih hrest⟩

theorem Shows.getName {x : XmlTree} {o : XmlObj} (h : Shows x o) : o.getName =
    match x with
    | .text _ => jtext "text"
    | .list name _ => name := by
  cases x with
  | text words =>
      obtain ⟨embedded, rfl, -⟩ := h
      rfl
  | list name trees =>
      obtain ⟨cls, embedded, rfl, -⟩ := h
      rfl

/-- The parts of a name show the lists of that name, if it is none of texts. -/
theorem showsAll_parts {tagname : JString} (htag : tagname ≠ jtext "text") {trees : List XmlTree}
    {embedded : List XmlObj} (h : ShowsAll trees embedded) :
    ShowsAll (contentOf tagname trees)
        ((embedded.filter (·.getName = tagname)).flatMap (addAll [])) ∧
      ∀ o ∈ embedded.filter (·.getName = tagname), o.isList = true ∧ o.isText = false := by
  induction trees generalizing embedded with
  | nil =>
      obtain rfl : embedded = [] := h
      exact ⟨rfl, fun o ho => by cases ho⟩
  | cons x trees ih =>
      obtain ⟨o, rest, rfl, hx, hrest⟩ := h
      obtain ⟨hall, hlist⟩ := ih hrest
      cases x with
      | text words =>
          obtain ⟨inner, rfl, -⟩ := hx
          have hself : ¬ (XmlObj.list .xmlText (jtext "text") inner).getName = tagname :=
            Ne.symm htag
          simp only [List.filter_cons, hself, decide_false, Bool.false_eq_true, if_false]
          exact ⟨hall, hlist⟩
      | list name inner =>
          obtain ⟨cls, os, rfl, hcls, hos⟩ := hx
          by_cases hname : name = tagname
          · have hself : (XmlObj.list cls name os).getName = tagname := hname
            simp only [List.filter_cons, hself, decide_true, if_true, List.flatMap_cons,
              List.mem_cons, forall_eq_or_imp]
            refine ⟨?_, ⟨rfl, by cases cls <;> first | rfl | exact absurd rfl hcls⟩, hlist⟩
            rw [contentOf, List.flatMap_cons]
            simp only [hname, if_true]
            exact showsAll_append hos hall
          · have hself : ¬ (XmlObj.list cls name os).getName = tagname := hname
            simp only [List.filter_cons, hself, decide_false, Bool.false_eq_true, if_false]
            refine ⟨?_, hlist⟩
            rw [contentOf, List.flatMap_cons]
            simp only [hname, if_false, List.nil_append]
            exact hall

/-- So does the part. -/
theorem showsAll_part {tagname : JString} (htag : tagname ≠ jtext "text") {trees : List XmlTree}
    {right : XmlObj} (h : ShowsAll trees right.getEmbedded) :
    ∃ cls name embedded, right.part tagname = .list cls name embedded ∧ cls ≠ .xmlText ∧
      ShowsAll (contentOf tagname trees) embedded := by
  obtain ⟨hall, hlists⟩ : ShowsAll (contentOf tagname trees)
      ((right.parts tagname).flatMap (addAll [])) ∧
      ∀ o ∈ right.parts tagname, o.isList = true ∧ o.isText = false := showsAll_parts htag h
  rcases part_cases right tagname with ⟨o, ho, -, hpart⟩ | ⟨hnot, hpart⟩ | ⟨-, hpart⟩
  · rw [ho] at hall hlists
    obtain ⟨hlist, htext⟩ := hlists o (List.mem_singleton_self o)
    cases o with
    | word text => cases hlist
    | var text after => cases hlist
    | list cls name inner =>
        refine ⟨cls, name, inner, hpart, ?_, by simpa [addAll] using hall⟩
        rintro rfl
        cases htext
  · have hnil : right.parts tagname = [] :=
      List.eq_nil_iff_forall_not_mem.mpr fun o ho => by
        have hlist := (hlists o ho).1
        rw [hnot o ho] at hlist
        cases hlist
    rw [hnil] at hall
    exact ⟨_, _, _, hpart, by decide, hall⟩
  · exact ⟨_, _, _, hpart, by decide, hall⟩

/-- The parts with the name of texts show the texts. -/
theorem showsAll_texts {trees : List XmlTree} (hread : ReadAll trees) {embedded : List XmlObj}
    (h : ShowsAll trees embedded) :
    List.Forall₂ Shows (trees.filter (·.isText))
      (embedded.filter (·.getName = jtext "text")) := by
  induction trees generalizing embedded with
  | nil =>
      obtain rfl : embedded = [] := h
      exact .nil
  | cons x trees ih =>
      obtain ⟨o, rest, rfl, hx, hrest⟩ := h
      have hall := ih hread.2 hrest
      cases x with
      | text words =>
          have hname : o.getName = jtext "text" := hx.getName
          rw [List.filter_cons_of_pos rfl, List.filter_cons_of_pos (by simpa using hname)]
          exact .cons hx hall
      | list name inner =>
          have hname : o.getName ≠ jtext "text" := by
            rw [hx.getName]
            exact hread.1.1.text
          rw [List.filter_cons_of_neg (by simp [Xml.XmlTree.isText]),
            List.filter_cons_of_neg (by simpa using hname)]
          exact hall

theorem readAll_contentOf {trees : List XmlTree} (h : ReadAll trees) (tagname : JString) :
    ReadAll (contentOf tagname trees) := by
  induction trees with
  | nil => trivial
  | cons x trees ih =>
      rw [contentOf, List.flatMap_cons]
      refine Xml.readAll_append.mpr ⟨?_, ih h.2⟩
      cases x with
      | text words => trivial
      | list name inner =>
          dsimp only
          split
          · exact h.1.2.2
          · trivial

/-! ## A premise and a fact without empty texts -/

/-- What a premise meets in such a fact. -/
inductive Settled : XmlObj → Prop
  | free {o : XmlObj} : o.TextFree → Settled o
  | text {name : JString} {embedded : List XmlObj} : embedded ≠ [] → TextFreeAll embedded →
      Settled (.list .xmlText name embedded)
  | tree {cls : ListClass} {name : JString} {trees : List XmlTree} {embedded : List XmlObj} :
      cls ≠ .xmlText → ReadAll trees → ShowsAll trees embedded → ¬ EmptyTextReached trees →
        Settled (.list cls name embedded)

theorem settled_newList : Settled newList := .free ⟨by decide, trivial⟩

theorem settled_part_text {cls : ListClass} {name : JString} {trees : List XmlTree}
    {embedded : List XmlObj} (hread : ReadAll trees) (hshows : ShowsAll trees embedded)
    (hempty : ¬ EmptyTextReached trees) :
    Settled ((XmlObj.list cls name embedded).part (jtext "text")) := by
  have htexts := showsAll_texts hread hshows
  have hparts : (XmlObj.list cls name embedded).parts (jtext "text") =
      embedded.filter (·.getName = jtext "text") := rfl
  rw [← hparts] at htexts
  rcases part_cases (.list cls name embedded) (jtext "text") with
    ⟨o, ho, -, hpart⟩ | ⟨-, hpart⟩ | ⟨-, hpart⟩
  · rw [hpart]
    rw [ho] at htexts
    obtain ⟨x, hx, hxs⟩ : ∃ x, Shows x o ∧ trees.filter (·.isText) = [x] := by
      generalize trees.filter (·.isText) = texts at htexts
      cases htexts with
      | cons hx hrest =>
          cases hrest
          exact ⟨_, hx, rfl⟩
    have hmem : x ∈ trees.filter (·.isText) := by simp [hxs]
    cases x with
    | list name inner => cases (List.mem_filter.mp hmem).2
    | text words =>
        obtain ⟨inner, rfl, hwords, hobjects⟩ := hx
        refine .text (fun hnil => hempty (.here ?_)) (textFreeAll_iff.mpr fun e he =>
          textFree_of_textObject (hobjects e he))
        rw [hxs, hwords.mp hnil]
  · exact hpart ▸ settled_newList
  · rw [hpart]
    refine .free ⟨by decide, textFreeAll_iff.mpr fun e he => ?_⟩
    obtain ⟨o, ho, he⟩ := List.mem_flatMap.mp he
    obtain ⟨x, hx, hshow⟩ := forall₂_mem_right htexts ho
    cases x with
    | list name inner => cases (List.mem_filter.mp hx).2
    | text words =>
        obtain ⟨inner, rfl, -, hobjects⟩ := hshow
        exact textFree_of_textObject (hobjects e he)

theorem Settled.part {right : XmlObj} (h : Settled right) {tagname : JString}
    (htag : isIgnoredTree tagname = false) : Settled (right.part tagname) := by
  cases h with
  | free hfree =>
      refine .free (textFree_part ?_ tagname)
      cases right with
      | word text => trivial
      | var text after => trivial
      | list cls name embedded => exact hfree.2
  | @text name embedded _ hfree =>
      exact .free (@textFree_part (.list .xmlText name embedded) hfree tagname)
  | @tree cls name trees embedded hcls hread hshows hempty =>
      by_cases hname : tagname = jtext "text"
      · exact hname ▸ settled_part_text hread hshows hempty
      obtain ⟨cls', name', inner, hpart, hcls', hall⟩ :=
        @showsAll_part _ hname _ (.list cls name embedded) hshows
      exact hpart ▸ .tree hcls' (readAll_contentOf hread tagname) hall
        fun hreached => hempty (.part htag hreached)

/-- No other part is a text. -/
theorem Settled.part_notText {right : XmlObj} (h : Settled right) {tagname : JString}
    (htag : tagname ≠ jtext "text") : (right.part tagname).isText = false := by
  cases h with
  | free hfree =>
      refine isText_of_textFree (textFree_part ?_ tagname)
      cases right with
      | word text => trivial
      | var text after => trivial
      | list cls name embedded => exact hfree.2
  | @text name embedded _ hfree =>
      exact isText_of_textFree (@textFree_part (.list .xmlText name embedded) hfree tagname)
  | @tree cls name trees embedded _ _ hshows _ =>
      obtain ⟨cls', name', inner, hpart, hcls', -⟩ :=
        @showsAll_part _ htag _ (.list cls name embedded) hshows
      rw [hpart]
      cases cls' with
      | xmlText => exact absurd rfl hcls'
      | xmlList => rfl
      | xmlSynonyms => rfl
      | xmlFact => rfl

mutual
/-- No premise fails there. -/
theorem XmlObj.matches_returns (left : XmlObj) {right : XmlObj} (h : Settled right)
    (variablemap : VariableMap) : ∃ m, left.matches right variablemap = some m := by
  cases left with
  | word text => exact ⟨_, rfl⟩
  | var text after => exact ⟨_, rfl⟩
  | list cls name embedded =>
      rw [XmlObj.matches]
      split
      · next htext =>
          cases h with
          | free hfree =>
              rw [isText_of_textFree hfree] at htext
              cases htext.2
          | text hne hfree => exact matchesTexts_returns embedded hfree (List.length_pos_iff.mpr hne) _
          | @tree cls' _ _ _ hcls =>
              cases cls' with
              | xmlText => exact absurd rfl hcls
              | xmlList => cases htext.2
              | xmlSynonyms => cases htext.2
              | xmlFact => cases htext.2
      · split
        · exact ⟨_, rfl⟩
        · split
          · exact matchesAll_returns embedded h variablemap
          · exact matchesAny_returns embedded h variablemap

theorem matchesAll_returns (embedded : List XmlObj) {right : XmlObj} (h : Settled right)
    (variablemap : VariableMap) : ∃ m, matchesAll embedded right variablemap = some m := by
  cases embedded with
  | nil => exact ⟨_, rfl⟩
  | cons e1 embedded =>
      obtain ⟨m, hm⟩ : ∃ m, e1.matches (right.part e1.getName) variablemap = some m := by
        cases hignored : isIgnoredTree e1.getName with
        | false => exact e1.matches_returns (h.part hignored) variablemap
        | true =>
            -- what is ignored is not looked at
            cases e1 with
            | word text => exact ⟨_, rfl⟩
            | var text after => exact ⟨_, rfl⟩
            | list cls name inner =>
                have htag : name ≠ jtext "text" := by
                  rintro rfl
                  have hignored : isIgnoredTree (jtext "text") = true := hignored
                  exact absurd hignored (by decide)
                have hnot := h.part_notText htag
                have hignored : isIgnoredTree name = true := hignored
                exact ⟨(true, variablemap), by simp [XmlObj.matches, XmlObj.getName, hnot, hignored]⟩
      rw [matchesAll, hm, Option.bind_eq_bind, Option.bind_some]
      split
      · exact matchesAll_returns embedded h m.2
      · exact ⟨_, rfl⟩

theorem matchesAny_returns (embedded : List XmlObj) {right : XmlObj} (h : Settled right)
    (variablemap : VariableMap) : ∃ m, matchesAny embedded right variablemap = some m := by
  cases embedded with
  | nil => exact ⟨_, rfl⟩
  | cons e1 embedded =>
      obtain ⟨m, hm⟩ := e1.matches_returns h variablemap
      rw [matchesAny, hm, Option.bind_eq_bind, Option.bind_some]
      split
      · exact ⟨_, rfl⟩
      · exact matchesAny_returns embedded h m.2

theorem matchesTexts_returns (emb1 : List XmlObj) {emb2 : List XmlObj} (hfree : TextFreeAll emb2)
    (hpos : 0 < emb2.length) {k : Nat} (variablemap : VariableMap) :
    ∃ m, matchesTexts emb1 emb2 k variablemap = some m := by
  cases emb1 with
  | nil => exact ⟨_, rfl⟩
  | cons l emb1 =>
      have htest : ∀ k s, ∃ m, matchesAt l (fun r vs => l.matches r vs) emb2 (k % emb2.length) s =
          some m := by
        intro k s
        have hk := Nat.mod_lt k hpos
        have hr := textFreeAll_iff.mp hfree _ (List.getElem_mem hk)
        obtain ⟨m, hm⟩ := l.matches_returns (.free hr) s
        cases l with
        | var text after => exact ⟨_, rfl⟩
        | word text => exact ⟨m, by simpa [matchesAt, List.getElem?_eq_getElem hk] using hm⟩
        | list cls name embedded =>
            exact ⟨m, by simpa [matchesAt, List.getElem?_eq_getElem hk] using hm⟩
      obtain ⟨m, hm⟩ := @cyclicSearch_returns _ _ _ variablemap htest (emb2.length * 2 - k) k
      simp only [matchesTexts, hm, Option.bind_eq_bind, Option.bind_some, wrap_of_pos hpos]
      split
      · exact matchesTexts_returns emb1 hfree hpos m.2.2
      · exact ⟨_, rfl⟩
end

end Freehal.Reasoning
