import Freehal.Xml.Lemmas.Reading

/-!
# What is read of a printed tree

The embedded objects that `readTree` builds from the text of a list, for all lists that it can have
built itself.
-/

namespace Freehal.Xml

/-! ## Trees that were read -/

mutual
/-- The words are made of their characters, the lists have names of tags and are not empty. -/
def XmlTree.Read : XmlTree → Prop
  | .text words => ∀ word ∈ words, word.all isWordChar = true
  | .list name embedded => TagName name ∧ embedded ≠ [] ∧ ReadAll embedded

def ReadAll : List XmlTree → Prop
  | [] => True
  | e :: embedded => e.Read ∧ ReadAll embedded
end

theorem readAll_append {xs ys : List XmlTree} : ReadAll (xs ++ ys) ↔ ReadAll xs ∧ ReadAll ys := by
  induction xs with
  | nil => simp [ReadAll]
  | cons x xs ih => simp [ReadAll, ih, and_assoc]

/-! ## Lists that print their first object only -/

mutual
/-- Every list of synonyms replaced by what is printed of it. -/
def XmlTree.flat : XmlTree → XmlTree
  | .text words => .text words
  | .list name embedded =>
      if name = jtext "synonyms" then flatFirst embedded else .list name (flatAll embedded)

def flatFirst : List XmlTree → XmlTree
  | [] => .text []
  | e :: _ => e.flat

def flatAll : List XmlTree → List XmlTree
  | [] => []
  | e :: embedded => e.flat :: flatAll embedded
end

mutual
def XmlTree.Unlinked : XmlTree → Prop
  | .text _ => True
  | .list name embedded => name ≠ jtext "synonyms" ∧ UnlinkedAll embedded

/-- There is no list of synonyms. -/
def UnlinkedAll : List XmlTree → Prop
  | [] => True
  | e :: embedded => e.Unlinked ∧ UnlinkedAll embedded
end

mutual
theorem printXmlFrom_flat (level secondlevel : Nat) (x : XmlTree) :
    x.flat.printXmlFrom level secondlevel = x.printXmlFrom level secondlevel := by
  match x with
  | .text words => rw [XmlTree.flat]
  | .list name embedded =>
      by_cases hname : name = jtext "synonyms"
      · have hclause : ¬ jtext "synonyms" = jtext "clause" := by decide
        rw [XmlTree.flat, if_pos hname, XmlTree.printXmlFrom]
        simp only [hname, if_neg hclause, if_true]
        exact printFirst_flat level secondlevel embedded
      · rw [XmlTree.flat, if_neg hname, XmlTree.printXmlFrom, XmlTree.printXmlFrom]
        simp only [if_neg hname, printEmbedded_flat]

theorem printFirst_flat (level secondlevel : Nat) (embedded : List XmlTree) :
    (flatFirst embedded).printXmlFrom level secondlevel =
      printFirst level secondlevel embedded := by
  match embedded with
  | [] => rw [flatFirst, XmlTree.printXmlFrom, printWords, printFirst]
  | e :: _ =>
      rw [flatFirst, printFirst]
      exact printXmlFrom_flat level secondlevel e

theorem printEmbedded_flat (level secondlevel : Nat) (embedded : List XmlTree) :
    printEmbedded level secondlevel (flatAll embedded) =
      printEmbedded level secondlevel embedded := by
  match embedded with
  | [] => rw [flatAll]
  | e :: embedded =>
      rw [flatAll, printEmbedded, printEmbedded, printXmlFrom_flat,
        printEmbedded_flat level secondlevel embedded]
end

mutual
theorem unlinked_flat (x : XmlTree) : x.flat.Unlinked := by
  match x with
  | .text words =>
      rw [XmlTree.flat, XmlTree.Unlinked]
      trivial
  | .list name embedded =>
      rw [XmlTree.flat]
      split
      · exact unlinked_flatFirst embedded
      · case isFalse hname =>
          rw [XmlTree.Unlinked]
          exact ⟨hname, unlinked_flatAll embedded⟩

theorem unlinked_flatFirst (embedded : List XmlTree) : (flatFirst embedded).Unlinked := by
  match embedded with
  | [] =>
      rw [flatFirst, XmlTree.Unlinked]
      trivial
  | e :: _ => exact unlinked_flat e

theorem unlinked_flatAll (embedded : List XmlTree) : UnlinkedAll (flatAll embedded) := by
  match embedded with
  | [] =>
      rw [flatAll, UnlinkedAll]
      trivial
  | e :: embedded =>
      rw [flatAll, UnlinkedAll]
      exact ⟨unlinked_flat e, unlinked_flatAll embedded⟩
end

mutual
theorem flat_of_unlinked (x : XmlTree) (h : x.Unlinked) : x.flat = x := by
  match x, h with
  | .text words, _ => rw [XmlTree.flat]
  | .list name embedded, h =>
      rw [XmlTree.Unlinked] at h
      rw [XmlTree.flat, if_neg h.1, flatAll_of_unlinked embedded h.2]

theorem flatAll_of_unlinked (embedded : List XmlTree) (h : UnlinkedAll embedded) :
    flatAll embedded = embedded := by
  match embedded, h with
  | [], _ => rw [flatAll]
  | e :: embedded, h =>
      rw [UnlinkedAll] at h
      rw [flatAll, flat_of_unlinked e h.1, flatAll_of_unlinked embedded h.2]
end

mutual
theorem read_flat (x : XmlTree) (h : x.Read) : x.flat.Read := by
  match x, h with
  | .text words, h => rwa [XmlTree.flat]
  | .list name embedded, h =>
      rw [XmlTree.Read] at h
      obtain ⟨hname, hne, hall⟩ := h
      rw [XmlTree.flat]
      split
      · exact read_flatFirst embedded hall
      · rw [XmlTree.Read]
        refine ⟨hname, ?_, read_flatAll embedded hall⟩
        obtain ⟨e, embedded, rfl⟩ := List.exists_cons_of_ne_nil hne
        rw [flatAll]
        exact List.cons_ne_nil _ _

theorem read_flatFirst (embedded : List XmlTree) (h : ReadAll embedded) :
    (flatFirst embedded).Read := by
  match embedded, h with
  | [], _ =>
      rw [flatFirst, XmlTree.Read]
      exact fun _ hmem => (by cases hmem)
  | e :: _, h =>
      rw [ReadAll] at h
      exact read_flat e h.1

theorem read_flatAll (embedded : List XmlTree) (h : ReadAll embedded) :
    ReadAll (flatAll embedded) := by
  match embedded, h with
  | [], _ => rwa [flatAll]
  | e :: embedded, h =>
      rw [ReadAll] at h
      rw [flatAll, ReadAll]
      exact ⟨read_flat e h.1, read_flatAll embedded h.2⟩
end

/-! ## The objects that come back -/

/-- What is printed in front of an object, behind it and in front of the closing tag. -/
def before (level secondlevel : Nat) : JString :=
  if secondlevel = 0 then indent (level + 1) else []

def behind (secondlevel : Nat) : JString := if secondlevel = 0 then [jchar '\n'] else []

def closing (level secondlevel : Nat) : JString := if secondlevel = 0 then indent level else []

/-- The levels of the objects in a list that is printed at these levels. -/
def innerLevel (name : JString) (level : Nat) : Nat :=
  if name = jtext "clause" then level + 1 else level

def innerSecondlevel (name : JString) (secondlevel : Nat) : Nat :=
  if name = jtext "clause" then 0 else secondlevel

/-- A list is kept if it is not empty. -/
def keep (name : JString) (embedded : List XmlTree) : List XmlTree :=
  if embedded.length > 0 then [.list name embedded] else []

/-- The objects that are read between two tags, with the text that was printed since the last
tag. -/
def reread (level secondlevel : Nat) (run : JString) : List XmlTree → List XmlTree
  | [] => flush (run ++ closing level secondlevel)
  | .text words :: embedded =>
      reread level secondlevel
        (run ++ before level secondlevel ++ printWords [] words ++ behind secondlevel) embedded
  | .list name inner :: embedded =>
      flush (run ++ before level secondlevel) ++
        keep name (reread (innerLevel name level) (innerSecondlevel name (secondlevel + 1))
          (behind (innerSecondlevel name (secondlevel + 1))) inner) ++
        reread level secondlevel (behind secondlevel) embedded

/-! ## Reading between two tags -/

theorem printXmlFrom_list (level secondlevel : Nat) {name : JString} (inner : List XmlTree)
    (hname : name ≠ jtext "synonyms") (rest : JString) :
    (XmlTree.list name inner).printXmlFrom level secondlevel ++ rest =
      jchar '<' :: name ++ jchar '>' :: (behind (innerSecondlevel name secondlevel) ++
        (printEmbedded (innerLevel name level) (innerSecondlevel name secondlevel) inner ++
          (closing (innerLevel name level) (innerSecondlevel name secondlevel) ++
            jchar '<' :: (jchar '/' :: name ++ jchar '>' :: rest)))) := by
  rw [XmlTree.printXmlFrom]
  simp only [if_neg hname, innerLevel, innerSecondlevel, behind, closing]
  simp only [List.cons_append, List.append_assoc, List.nil_append]
  rfl

theorem printEmbedded_cons (level secondlevel : Nat) (e : XmlTree) (embedded : List XmlTree) :
    printEmbedded level secondlevel (e :: embedded) =
      before level secondlevel ++ (e.printXmlFrom level (secondlevel + 1) ++
        (behind secondlevel ++ printEmbedded level secondlevel embedded)) := by
  rw [printEmbedded]
  simp only [before, behind, List.append_assoc]

theorem blank_indent (level : Nat) : ∀ c ∈ indent level, isBlank c := by
  intro c hc
  rw [List.eq_of_mem_replicate hc]
  decide

theorem blank_before (level secondlevel : Nat) : ∀ c ∈ before level secondlevel, isBlank c := by
  unfold before
  split
  · exact blank_indent _
  · exact fun c hc => (by cases hc)

theorem blank_behind (secondlevel : Nat) : ∀ c ∈ behind secondlevel, isBlank c := by
  unfold behind
  split
  · intro c hc
    rw [List.mem_singleton.mp hc]
    decide
  · exact fun c hc => (by cases hc)

theorem blank_closing (level secondlevel : Nat) : ∀ c ∈ closing level secondlevel, isBlank c := by
  unfold closing
  split
  · exact blank_indent _
  · exact fun c hc => (by cases hc)

theorem wordChar_ne {num : JChar} (h : isWordChar num = true) :
    isBlank num = false ∧ num ≠ jchar '<' ∧ num ≠ jchar '.' := by
  refine ⟨?_, ?_, ?_⟩
  · by_contra hb
    simp only [isBlank, Bool.not_eq_false, Bool.or_eq_true, decide_eq_true_eq] at hb
    rcases hb with ((rfl | rfl) | rfl) | rfl <;> cases h
  · rintro rfl
    cases h
  · rintro rfl
    cases h

/-- Words and blanks. -/
def Wordy (text : JString) : Prop := ∀ num ∈ text, isWordChar num = true ∨ isBlank num = true

theorem Wordy.append {u v : JString} (hu : Wordy u) (hv : Wordy v) : Wordy (u ++ v) := by
  intro num hnum
  exact (List.mem_append.mp hnum).elim (hu num) (hv num)

theorem Wordy.of_blank {u : JString} (h : ∀ c ∈ u, isBlank c) : Wordy u :=
  fun c hc => Or.inr (h c hc)

theorem Wordy.lt {text : JString} (h : Wordy text) : jchar '<' ∉ text := by
  intro hmem
  rcases h _ hmem with hword | hblank
  · exact (wordChar_ne hword).2.1 rfl
  · rw [blank_lt] at hblank
    cases hblank

theorem wordy_printWords {words : List JString} (h : ∀ word ∈ words, word.all isWordChar = true)
    {str : JString} (hstr : Wordy str) : Wordy (printWords str words) := by
  induction words generalizing str with
  | nil => exact hstr
  | cons word words ih =>
      apply ih (fun w hw => h w (by simp [hw]))
      apply Wordy.append
      · split
        · refine hstr.append (Wordy.of_blank fun c hc => ?_)
          rw [List.mem_singleton.mp hc]
          decide
        · exact hstr
      · exact fun c hc => Or.inl (List.all_eq_true.mp (h word (by simp)) c hc)

/-- Between two tags the objects are read as `reread` says. -/
theorem readTree_embedded (level secondlevel : Nat) (embedded : List XmlTree) {run : JString}
    (hrun : Wordy run) (hunlinked : UnlinkedAll embedded) (hread : ReadAll embedded)
    {tagname : JString} (hspaced : Spaced tagname) (hgt : jchar '>' ∉ tagname)
    (tree : List XmlTree) (rest : JString) :
    readTree tagname (textTokens (run ++ (printEmbedded level secondlevel embedded ++
        (closing level secondlevel ++ jchar '<' :: (jchar '/' :: tagname ++ jchar '>' :: rest)))))
        tree =
      (tree ++ reread level secondlevel run embedded, textTokens rest) := by
  match embedded, hunlinked, hread with
  | [], _, _ =>
      have hlast : Wordy (run ++ closing level secondlevel) :=
        hrun.append (Wordy.of_blank (blank_closing level secondlevel))
      rw [printEmbedded, List.nil_append, ← List.append_assoc, textTokens_run hlast.lt,
        textTokens_close hspaced hgt, readTree_run hlast.lt (List.cons_ne_nil _ _),
        readTree_close, reread]
  | .text words :: embedded, hunlinked, hread =>
      rw [UnlinkedAll] at hunlinked
      rw [ReadAll, XmlTree.Read] at hread
      have hnext : Wordy (run ++ before level secondlevel ++ printWords [] words ++
          behind secondlevel) :=
        ((hrun.append (Wordy.of_blank (blank_before level secondlevel))).append
          (wordy_printWords hread.1 (fun _ hc => (by cases hc)))).append
            (Wordy.of_blank (blank_behind secondlevel))
      have ih := readTree_embedded level secondlevel embedded hnext hunlinked.2 hread.2 hspaced hgt
        tree rest
      rw [printEmbedded_cons, XmlTree.printXmlFrom, reread, ← ih]
      simp only [List.append_assoc]
  | .list name inner :: embedded, hunlinked, hread =>
      rw [UnlinkedAll, XmlTree.Unlinked] at hunlinked
      rw [ReadAll, XmlTree.Read] at hread
      obtain ⟨⟨hname, hinner⟩, hunlinked⟩ := hunlinked
      obtain ⟨⟨htag, hne, hreadInner⟩, hread⟩ := hread
      have hlast : Wordy (run ++ before level secondlevel) :=
        hrun.append (Wordy.of_blank (blank_before level secondlevel))
      -- The text behind the list up to the closing tag of the list that it is in.
      generalize hafter : behind secondlevel ++ (printEmbedded level secondlevel embedded ++
        (closing level secondlevel ++ jchar '<' :: (jchar '/' :: tagname ++ jchar '>' :: rest)))
          = after
      have ih : ∀ tree, readTree tagname (textTokens after) tree =
          (tree ++ reread level secondlevel (behind secondlevel) embedded, textTokens rest) := by
        intro tree
        rw [← hafter]
        exact readTree_embedded level secondlevel embedded
          (Wordy.of_blank (blank_behind secondlevel)) hunlinked hread hspaced hgt tree rest
      have ihInner := readTree_embedded (innerLevel name level)
        (innerSecondlevel name (secondlevel + 1)) inner
        (Wordy.of_blank (blank_behind (innerSecondlevel name (secondlevel + 1)))) hinner
        hreadInner htag.spaced htag.gt [] after
      have hprint : run ++ (printEmbedded level secondlevel (.list name inner :: embedded) ++
          (closing level secondlevel ++ jchar '<' :: (jchar '/' :: tagname ++ jchar '>' :: rest)))
          = (run ++ before level secondlevel) ++
            ((XmlTree.list name inner).printXmlFrom level (secondlevel + 1) ++ after) := by
        rw [← hafter, printEmbedded_cons]
        simp only [List.append_assoc]
      rw [hprint, printXmlFrom_list _ _ _ hname, List.cons_append, textTokens_run hlast.lt,
        ← List.cons_append, textTokens_open htag]
      rw [readTree_run hlast.lt (List.cons_ne_nil _ _), readTree_open htag.slash htag.text ?_,
        ihInner, reread]
      · dsimp only
        rw [ih, List.nil_append, keep]
        split
        · simp only [List.append_assoc]
        · simp only [List.append_assoc, List.nil_append]
      · apply textTokens_ne_nil
        simp
termination_by sizeOf embedded

end Freehal.Xml
