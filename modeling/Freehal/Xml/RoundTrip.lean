import Freehal.Xml.Lemmas.Words

/-!
# Facts that are written and read again

Which facts come back from `StringSerializer` as they were.
-/

namespace Freehal.Xml

open StringSerializer

/-! ## Facts -/

theorem ReadFact.flat {x : XmlTree} (h : ReadFact x) :
    ∃ content, x = .list (jtext "fact") content ∧
      x.flat = .list (jtext "fact") (flatAll content) ∧ ReadAll (flatAll content) := by
  obtain ⟨content, rfl, hread⟩ := h
  have hname : ¬ jtext "fact" = jtext "synonyms" := by decide
  refine ⟨content, rfl, ?_, read_flatAll content hread⟩
  rw [XmlTree.flat, if_neg hname]

/-- The content of a fact as it comes back. -/
def rereadFact : XmlTree → XmlTree
  | .text words => .text words
  | .list name content => .list name (reread 0 0 (behind 0) (flatAll content))

theorem spaced_fact : Spaced (jtext "fact") := by
  refine ⟨?_, by decide⟩
  have hall : (jtext "fact").all (!isBlank ·) = true := by decide
  intro c hc hb
  have := List.all_eq_true.mp hall c hc
  rw [hb] at this
  cases this

theorem printXml_fact {x : XmlTree} (h : ReadFact x) (rest : JString) :
    ∃ content, x = .list (jtext "fact") content ∧
      textTokens (x.printXml ++ rest) = jtext "<fact" ::
        textTokens (behind 0 ++ (printEmbedded 0 0 (flatAll content) ++
          (closing 0 0 ++ jchar '<' :: (jchar '/' :: jtext "fact" ++ jchar '>' :: rest)))) := by
  obtain ⟨content, hx, hflat, -⟩ := h.flat
  refine ⟨content, hx, ?_⟩
  have hname : jtext "fact" ≠ jtext "synonyms" := by decide
  have hprint := printXmlFrom_list 0 0 (flatAll content) hname rest
  rw [XmlTree.printXml, ← printXmlFrom_flat, hflat, hprint]
  exact textTokens_tag spaced_fact (by decide) _

theorem readFactsLoop_toString {facts : List XmlTree} (h : ∀ x ∈ facts, ReadFact x) {fuel : Nat}
    (hfuel : (textTokens (toString facts)).length < fuel) :
    readFactsLoop fuel (textTokens (toString facts)) = facts.map rereadFact := by
  induction facts generalizing fuel with
  | nil =>
      obtain ⟨fuel, rfl⟩ := Nat.exists_eq_succ_of_ne_zero (show fuel ≠ 0 by omega)
      rfl
  | cons x facts ih =>
      obtain ⟨fuel, rfl⟩ := Nat.exists_eq_succ_of_ne_zero (show fuel ≠ 0 by omega)
      have hrest : ∀ y ∈ facts, ReadFact y := fun y hy => h y (by simp [hy])
      obtain ⟨content, rfl, htokens⟩ := printXml_fact (h x (by simp)) (toString facts)
      obtain ⟨content', hcontent, -, hread⟩ := (h (.list (jtext "fact") content) (by simp)).flat
      obtain rfl := (XmlTree.list.inj hcontent).2
      have hinner := readTree_embedded 0 0 (flatAll content) (Wordy.of_blank (blank_behind 0))
        (unlinked_flatAll content) hread spaced_fact (by decide) [] (toString facts)
      have hcons : toString (.list (jtext "fact") content :: facts) =
          (XmlTree.list (jtext "fact") content).printXml ++ toString facts := rfl
      rw [hcons, htokens] at hfuel ⊢
      generalize textTokens (behind 0 ++ (printEmbedded 0 0 (flatAll content) ++
        (closing 0 0 ++ jchar '<' :: (jchar '/' :: jtext "fact" ++ jchar '>' :: toString facts))))
          = lines at hfuel hinner
      have hlen := readTreeLoop_length (lines.length + 1) (jtext "fact") lines []
      rw [← readTree, hinner] at hlen
      rw [List.length_cons] at hfuel
      rw [readFactsLoop, if_pos rfl]
      dsimp only
      rw [hinner, ih hrest (by dsimp only at hlen; omega)]
      rfl

theorem fromString_toString {facts : List XmlTree} (h : ∀ x ∈ facts, ReadFact x) :
    fromString (toString facts) = facts.map rereadFact := by
  rw [fromString, readXmlFacts, tokens_single]
  exact readFactsLoop_toString h (Nat.lt_succ_self _)

/-! ## Facts that come back -/

def XmlTree.isText : XmlTree → Bool
  | .text _ => true
  | .list _ _ => false

/-- No two texts follow each other. -/
def Apart (embedded : List XmlTree) : Prop :=
  embedded.IsChain fun x y => ¬ (x.isText = true ∧ y.isText = true)

mutual
/-- What is printed such that it is read as the same tree, with or without line ends around it. -/
def XmlTree.Clean (inLine : Bool) : XmlTree → Prop
  | .text words => words ≠ [] ∧ [] ∉ words ∧ (inLine = true → words ≠ [jtext "00000"])
  | .list name embedded =>
      name ≠ jtext "synonyms" ∧ Apart embedded ∧
        CleanAll (decide (name ≠ jtext "clause")) embedded

def CleanAll (inLine : Bool) : List XmlTree → Prop
  | [] => True
  | e :: embedded => e.Clean inLine ∧ CleanAll inLine embedded
end

/-- The objects of a fact have lines of their own. -/
def CleanFact : XmlTree → Prop
  | .text _ => False
  | .list _ content => Apart content ∧ CleanAll false content

mutual
theorem unlinked_of_clean {inLine : Bool} (x : XmlTree) (h : x.Clean inLine) : x.Unlinked := by
  match x, h with
  | .text words, _ =>
      rw [XmlTree.Unlinked]
      trivial
  | .list name embedded, h =>
      rw [XmlTree.Clean] at h
      rw [XmlTree.Unlinked]
      exact ⟨h.1, unlinkedAll_of_clean embedded h.2.2⟩

theorem unlinkedAll_of_clean {inLine : Bool} (embedded : List XmlTree)
    (h : CleanAll inLine embedded) : UnlinkedAll embedded := by
  match embedded, h with
  | [], _ => exact trivial
  | e :: embedded, h =>
      rw [CleanAll] at h
      rw [UnlinkedAll]
      exact ⟨unlinked_of_clean e h.1, unlinkedAll_of_clean embedded h.2⟩
end

theorem unlinkedAll_append {xs ys : List XmlTree} :
    UnlinkedAll (xs ++ ys) ↔ UnlinkedAll xs ∧ UnlinkedAll ys := by
  induction xs with
  | nil => simp [UnlinkedAll]
  | cons x xs ih => simp [UnlinkedAll, ih, and_assoc]

theorem flush_length (run : JString) : (flush run).length ≤ 1 := by
  unfold flush readText
  split
  · exact Nat.zero_le _
  · split <;> simp

theorem unlinkedAll_flush (run : JString) : UnlinkedAll (flush run) := by
  unfold flush readText
  split
  · exact trivial
  · split
    · exact trivial
    · rw [UnlinkedAll, XmlTree.Unlinked]
      exact ⟨trivial, trivial⟩

/-- No list of synonyms is read where none was printed. -/
theorem unlinked_reread (level secondlevel : Nat) (run : JString) (embedded : List XmlTree)
    (h : UnlinkedAll embedded) : UnlinkedAll (reread level secondlevel run embedded) := by
  match embedded, h with
  | [], _ =>
      rw [reread]
      exact unlinkedAll_flush _
  | .text words :: embedded, h =>
      rw [UnlinkedAll] at h
      rw [reread]
      exact unlinked_reread _ _ _ embedded h.2
  | .list name inner :: embedded, h =>
      rw [UnlinkedAll, XmlTree.Unlinked] at h
      obtain ⟨⟨hname, hinner⟩, hembedded⟩ := h
      rw [reread, unlinkedAll_append, unlinkedAll_append]
      refine ⟨⟨unlinkedAll_flush _, ?_⟩, unlinked_reread _ _ _ embedded hembedded⟩
      unfold keep
      split
      · rw [UnlinkedAll, XmlTree.Unlinked]
        exact ⟨⟨hname, unlinked_reread _ _ _ inner hinner⟩, trivial⟩
      · exact trivial
termination_by sizeOf embedded

theorem keep_length (name : JString) (embedded : List XmlTree) :
    (keep name embedded).length ≤ 1 := by
  unfold keep
  split <;> simp

theorem keep_eq_iff {name : JString} {inner r : List XmlTree} (hne : inner ≠ []) :
    keep name r = [.list name inner] ↔ r = inner := by
  unfold keep
  split
  · simp
  · case isFalse h =>
      have hr : r = [] := List.length_eq_zero_iff.mp (by omega)
      rw [hr]
      exact ⟨fun he => (by cases he), fun he => absurd he.symm hne⟩

/-- Every text and every list gives one object at most, and so does the text before them. -/
theorem reread_length (level secondlevel : Nat) (run : JString) (embedded : List XmlTree) :
    (reread level secondlevel run embedded).length ≤
      embedded.length + if solid run = [] then 0 else 1 := by
  have hblank : ∀ run' v, (∀ c ∈ v, isBlank c) → solid (run' ++ v) = solid run' := by
    intro run' v hv
    rw [solid_append, solid_eq_nil.mpr hv, List.append_nil]
  have hflush : ∀ run', (flush run').length ≤ if solid run' = [] then 0 else 1 := by
    intro run'
    split
    · case isTrue h => rw [flush, if_pos h]; exact Nat.le_refl _
    · exact flush_length run'
  induction embedded generalizing run with
  | nil =>
      have := hflush (run ++ closing level secondlevel)
      rw [hblank _ _ (blank_closing _ _)] at this
      rw [reread]
      simpa using this
  | cons e embedded ih =>
      cases e with
      | text words =>
          have := ih (run ++ before level secondlevel ++ printWords [] words ++ behind secondlevel)
          rw [reread, List.length_cons]
          split at this <;> split <;> omega
      | list name inner =>
          have hhead := hflush (run ++ before level secondlevel)
          rw [hblank _ _ (blank_before _ _)] at hhead
          have hkeep := keep_length name (reread (innerLevel name level)
            (innerSecondlevel name (secondlevel + 1))
            (behind (innerSecondlevel name (secondlevel + 1))) inner)
          have htail := ih (behind secondlevel)
          rw [if_pos (solid_eq_nil.mpr (blank_behind _))] at htail
          rw [reread, List.length_append, List.length_append, List.length_cons]
          omega

theorem append_eq_cons_iff_of_length {α : Type} {a b xs : List α} {x : α} (ha : a.length ≤ 1)
    (hb : b.length ≤ xs.length) : a ++ b = x :: xs ↔ a = [x] ∧ b = xs := by
  refine ⟨?_, ?_⟩
  · intro h
    have hlen := congrArg List.length h
    rw [List.length_append, List.length_cons] at hlen
    obtain ⟨y, rfl⟩ := List.length_eq_one_iff.mp (show a.length = 1 by omega)
    obtain ⟨rfl, rfl⟩ := List.cons.inj h
    exact ⟨rfl, rfl⟩
  · rintro ⟨rfl, rfl⟩
    rfl

theorem apart_list (name : JString) (inner tail : List XmlTree) :
    Apart (.list name inner :: tail) ↔ Apart tail := by
  rw [Apart, List.isChain_cons]
  exact and_iff_right fun _ _ hboth => (by cases hboth.1)

theorem apart_text_list (words : List JString) (name : JString) (inner tail : List XmlTree) :
    Apart (.text words :: .list name inner :: tail) ↔ Apart tail := by
  rw [Apart, List.isChain_cons_cons]
  refine (and_iff_right fun hboth => ?_).trans (apart_list name inner tail)
  cases hboth.2

/-- A text between two tags. -/
theorem flush_text_iff (level secondlevel : Nat) {run v : JString} (hrun : ∀ c ∈ run, isBlank c)
    {words : List JString} (hwords : ∀ w ∈ words, w.all isWordChar = true)
    (hv : ∀ c ∈ v, isBlank c) (hnil : secondlevel ≠ 0 → v = []) :
    flush (run ++ before level secondlevel ++ printWords [] words ++ behind secondlevel ++ v) =
        [.text words] ↔
      words ≠ [] ∧ [] ∉ words ∧ (decide (secondlevel ≠ 0) = true → words ≠ [jtext "00000"]) := by
  have hbl : ∀ c ∈ run ++ before level secondlevel, isBlank c := fun c hc =>
    (List.mem_append.mp hc).elim (hrun c) (blank_before level secondlevel c)
  have hbl' : ∀ c ∈ behind secondlevel ++ v, isBlank c := fun c hc =>
    (List.mem_append.mp hc).elim (blank_behind secondlevel c) (hv c)
  have hinLine : behind secondlevel ++ v = [] ↔ secondlevel ≠ 0 := by
    unfold behind
    by_cases hzero : secondlevel = 0
    · simp [hzero]
    · simp [hzero, hnil hzero]
  rw [List.append_assoc _ (behind secondlevel) v, flush_eq_iff hbl hbl' hwords, hinLine,
    decide_eq_true_eq]

theorem inLine_inner (name : JString) (secondlevel : Nat) :
    decide (innerSecondlevel name (secondlevel + 1) ≠ 0) = decide (name ≠ jtext "clause") := by
  unfold innerSecondlevel
  by_cases hname : name = jtext "clause" <;> simp [hname]

/-- The objects of a list come back if and only if all of them are clean and no two texts are
adjacent. -/
theorem reread_eq_iff (level secondlevel : Nat) {run : JString} (hrun : ∀ c ∈ run, isBlank c)
    (embedded : List XmlTree) (hread : ReadAll embedded) (hunlinked : UnlinkedAll embedded) :
    reread level secondlevel run embedded = embedded ↔
      Apart embedded ∧ CleanAll (decide (secondlevel ≠ 0)) embedded := by
  have hlength : ∀ embedded, (reread level secondlevel (behind secondlevel) embedded).length ≤
      embedded.length := by
    intro embedded
    have := reread_length level secondlevel (behind secondlevel) embedded
    rwa [if_pos (solid_eq_nil.mpr (blank_behind _))] at this
  have hbefore : ∀ run, (∀ c ∈ run, isBlank c) → flush (run ++ before level secondlevel) = [] :=
    fun run hrun => flush_blank fun c hc =>
      (List.mem_append.mp hc).elim (hrun c) (blank_before level secondlevel c)
  -- A list and what follows it.
  have hlist : ∀ name inner tail, sizeOf inner < sizeOf embedded → sizeOf tail < sizeOf embedded →
      TagName name ∧ inner ≠ [] ∧ ReadAll inner → ReadAll tail →
      name ≠ jtext "synonyms" ∧ UnlinkedAll inner → UnlinkedAll tail →
      (keep name (reread (innerLevel name level) (innerSecondlevel name (secondlevel + 1))
          (behind (innerSecondlevel name (secondlevel + 1))) inner) ++
        reread level secondlevel (behind secondlevel) tail = .list name inner :: tail ↔
      (XmlTree.list name inner).Clean (decide (secondlevel ≠ 0)) ∧
        Apart tail ∧ CleanAll (decide (secondlevel ≠ 0)) tail) := by
    intro name inner tail hinner htail hr hrTail hu huTail
    have ihInner := reread_eq_iff (innerLevel name level) (innerSecondlevel name (secondlevel + 1))
      (blank_behind (innerSecondlevel name (secondlevel + 1))) inner hr.2.2 hu.2
    have ihTail := reread_eq_iff level secondlevel (blank_behind secondlevel) tail hrTail huTail
    rw [append_eq_cons_iff_of_length (keep_length _ _) (hlength tail), keep_eq_iff hr.2.1,
      ihInner, ihTail, inLine_inner, XmlTree.Clean]
    simp only [hu.1, ne_eq, not_false_eq_true, true_and]
  match embedded, hread, hunlinked with
  | [], _, _ =>
      have hlast : flush (run ++ closing level secondlevel) = [] := flush_blank fun c hc =>
        (List.mem_append.mp hc).elim (hrun c) (blank_closing level secondlevel c)
      rw [reread, hlast]
      simp [Apart, CleanAll]
  | [.text words], hread, _ =>
      rw [ReadAll, XmlTree.Read] at hread
      have hclosing : secondlevel ≠ 0 → closing level secondlevel = [] := fun h => if_neg h
      rw [reread, reread, flush_text_iff level secondlevel hrun hread.1
        (blank_closing level secondlevel) hclosing]
      simp [Apart, CleanAll, XmlTree.Clean]
  | .text words :: .text words' :: tail, hread, hunlinked =>
      have hlen := reread_length level secondlevel (run ++ before level secondlevel ++
        printWords [] words ++ behind secondlevel ++ before level secondlevel ++
        printWords [] words' ++ behind secondlevel) tail
      rw [reread, reread]
      refine ⟨?_, ?_⟩
      · intro heq
        rw [heq, List.length_cons, List.length_cons] at hlen
        split at hlen <;> omega
      · intro hclean
        exact absurd ⟨rfl, rfl⟩ (List.isChain_cons_cons.mp hclean.1).1
  | .text words :: .list name inner :: tail, hread, hunlinked =>
      rw [ReadAll, XmlTree.Read, ReadAll, XmlTree.Read] at hread
      rw [UnlinkedAll, UnlinkedAll, XmlTree.Unlinked, XmlTree.Unlinked] at hunlinked
      obtain ⟨hwords, hr, hrTail⟩ := hread
      obtain ⟨-, hu, huTail⟩ := hunlinked
      have hsize : sizeOf (XmlTree.text words :: XmlTree.list name inner :: tail) =
          1 + (1 + sizeOf words) + (1 + (1 + sizeOf name + sizeOf inner) + sizeOf tail) := by
        simp only [List.cons.sizeOf_spec, XmlTree.list.sizeOf_spec, XmlTree.text.sizeOf_spec]
      have hcut : secondlevel ≠ 0 → before level secondlevel = [] := fun h => if_neg h
      have hkeep := keep_length name (reread (innerLevel name level)
        (innerSecondlevel name (secondlevel + 1))
        (behind (innerSecondlevel name (secondlevel + 1))) inner)
      have hbehind := hlength tail
      rw [reread, reread, List.append_assoc, append_eq_cons_iff_of_length (flush_length _)
        (by rw [List.length_append, List.length_cons]; omega),
        flush_text_iff level secondlevel hrun hwords (blank_before level secondlevel) hcut,
        hlist name inner tail (by omega) (by omega) hr hrTail hu huTail,
        apart_text_list, CleanAll, CleanAll, XmlTree.Clean]
      exact ⟨fun h => ⟨h.2.2.1, h.1, h.2.1, h.2.2.2⟩, fun h => ⟨h.2.1, h.2.2.1, h.1, h.2.2.2⟩⟩
  | .list name inner :: tail, hread, hunlinked =>
      rw [ReadAll, XmlTree.Read] at hread
      rw [UnlinkedAll, XmlTree.Unlinked] at hunlinked
      have hsize : sizeOf (XmlTree.list name inner :: tail) =
          1 + (1 + sizeOf name + sizeOf inner) + sizeOf tail := by
        simp only [List.cons.sizeOf_spec, XmlTree.list.sizeOf_spec]
      rw [reread, hbefore run hrun, List.nil_append,
        hlist name inner tail (by omega) (by omega) hread.1 hread.2 hunlinked.1 hunlinked.2,
        apart_list, CleanAll]
      exact and_left_comm
termination_by sizeOf embedded
decreasing_by
  · exact hinner
  · exact htail

/-- The same facts: as they are printed, in their words and in their structure. -/
structure SameFacts (facts facts' : List XmlTree) : Prop where
  printed : facts.map XmlTree.printXml = facts'.map XmlTree.printXml
  words : facts.map XmlTree.getWords = facts'.map XmlTree.getWords
  tree : facts = facts'

theorem rereadFact_eq_iff {x : XmlTree} (h : ReadFact x) : rereadFact x = x ↔ CleanFact x := by
  obtain ⟨content, rfl, hread⟩ := h
  rw [rereadFact, XmlTree.list.injEq, CleanFact]
  refine (and_iff_right rfl).trans ?_
  refine ⟨?_, ?_⟩
  · intro heq
    have hunlinked : UnlinkedAll content := by
      rw [← heq]
      exact unlinked_reread _ _ _ _ (unlinked_flatAll content)
    rw [flatAll_of_unlinked content hunlinked] at heq
    exact (reread_eq_iff 0 0 (blank_behind 0) content hread hunlinked).mp heq
  · intro hclean
    have hunlinked := unlinkedAll_of_clean content hclean.2
    rw [flatAll_of_unlinked content hunlinked]
    exact (reread_eq_iff 0 0 (blank_behind 0) content hread hunlinked).mpr hclean

theorem map_eq_self_iff {α : Type} {f : α → α} {xs : List α} :
    xs.map f = xs ↔ ∀ x ∈ xs, f x = x := by
  induction xs with
  | nil => simp
  | cons x xs ih => simp [ih]

/-- The facts of an input come back from the serializer if and only if all of them are clean. -/
theorem sameFacts_iff_clean (pieces : List JString) :
    SameFacts (fromString (toString (readXmlFacts pieces))) (readXmlFacts pieces) ↔
      ∀ x ∈ readXmlFacts pieces, CleanFact x := by
  have hread := readFact_readXmlFacts pieces
  have hsame : SameFacts (fromString (toString (readXmlFacts pieces))) (readXmlFacts pieces) ↔
      fromString (toString (readXmlFacts pieces)) = readXmlFacts pieces := by
    refine ⟨SameFacts.tree, ?_⟩
    intro heq
    rw [heq]
    exact ⟨rfl, rfl, rfl⟩
  rw [hsame, fromString_toString hread, map_eq_self_iff]
  exact forall₂_congr fun x hx => rereadFact_eq_iff (hread x hx)

/-- A subject of two texts. -/
def twoTexts : JString :=
  jtext "<fact><subject><text>my</text><text>name</text></subject></fact>"

theorem twoTexts_joined : ¬ ∀ pieces : List JString,
    SameFacts (fromString (toString (readXmlFacts pieces))) (readXmlFacts pieces) := by
  intro hall
  have hread : readXmlFacts [twoTexts] = [.list (jtext "fact")
      [.list (jtext "subject") [.text [jtext "my"], .text [jtext "name"]]]] := rfl
  have hback : fromString (toString (readXmlFacts [twoTexts])) = [.list (jtext "fact")
      [.list (jtext "subject") [.text [jtext "myname"]]]] := rfl
  have hwords := (hall [twoTexts]).words
  rw [hback, hread] at hwords
  exact absurd hwords (by decide)

end Freehal.Xml
