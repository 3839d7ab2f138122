import Freehal.Xml.Lemmas.Tokens
import Freehal.Xml.Serializer
import Mathlib.Data.List.Chain

/-!
# Tags, texts and the reader

The tokens of what `printXml` writes, and one equation of `readTree` for each kind of line.
-/

namespace Freehal.Xml

/-! ## Tags -/

/-- The blanks of a text are single spaces. -/
structure Spaced (text : JString) : Prop where
  space : ∀ c ∈ text, isBlank c → c = jchar ' '
  single : text.IsChain fun c d => ¬ (c = jchar ' ' ∧ d = jchar ' ')

theorem Spaced.of_cons {c : JChar} {text : JString} (h : Spaced (c :: text)) : Spaced text :=
  ⟨fun d hd => h.space d (by simp [hd]), h.single.of_cons⟩

theorem Spaced.cons {c : JChar} {text : JString} (hc : isBlank c = false) (h : Spaced text) :
    Spaced (c :: text) := by
  have hspace : c ≠ jchar ' ' := by
    rintro rfl
    cases hc
  refine ⟨?_, ?_⟩
  · intro d hd hb
    rcases List.mem_cons.mp hd with rfl | hd
    · rw [hc] at hb
      cases hb
    · exact h.space d hd hb
  · exact List.isChain_cons.mpr ⟨fun d _ hboth => hspace hboth.1, h.single⟩

/-- Within a tag or a text nothing is lost. -/
theorem scan_spaced {text v : JString} (h : Spaced text) {st : Scan} {tag : Bool}
    (htag : st.inTagname = some tag) (hne : st.predata ≠ []) (hstop : stop tag ∉ text)
    (hhead : text.head? = some (jchar ' ') → st.isSpace = false) :
    scan (text ++ v) st =
      scan v ⟨st.predata ++ text, some tag, text.getLast?.elim st.isSpace isBlank⟩ := by
  induction text generalizing st with
  | nil =>
      rw [List.nil_append, List.append_nil, ← htag]
      rfl
  | cons c text ih =>
      have hc : c ≠ stop tag := fun he => hstop (by simp [he])
      have htext : stop tag ∉ text := fun he => hstop (by simp [he])
      have hstep : scan (c :: (text ++ v)) st =
          scan (text ++ v) ⟨st.predata ++ [c], some tag, isBlank c⟩ := by
        cases hb : isBlank c with
        | false => exact scan_inside_cons htag hb hc
        | true =>
            obtain rfl := h.space c (by simp) hb
            have hspace := hhead rfl
            have hpos := List.length_pos_iff.mpr hne
            rw [scan, if_pos hb, Scan.blank, ← htag]
            simp [hspace, hpos]
      have hnext : text.head? = some (jchar ' ') → isBlank c = false := by
        intro hd
        by_contra hb
        have hb : isBlank c = true := by simpa using hb
        obtain rfl := h.space c (by simp) hb
        exact (List.isChain_cons.mp h.single).1 _ hd ⟨rfl, rfl⟩
      rw [List.cons_append, hstep, @ih h.of_cons ⟨st.predata ++ [c], some tag, isBlank c⟩ rfl
        (by simp) htext hnext, List.getLast?_cons]
      cases text.getLast? <;> simp

theorem scan_tag {text : JString} (h : Spaced text) (hgt : jchar '>' ∉ text) (rest : JString) :
    scan (jchar '<' :: text ++ jchar '>' :: rest) .start = .token (jchar '<' :: text) rest := by
  have hfirst := @scan_first [] (text ++ jchar '>' :: rest) (jchar '<') (by simp) blank_lt
  have htag : (Scan.first (jchar '<')).inTagname = some true := by simp [Scan.first]
  have hinside := scan_spaced (v := jchar '>' :: rest) h htag (by simp [Scan.first]) hgt
    fun _ => rfl
  rw [List.nil_append] at hfirst
  rw [List.cons_append, hfirst, hinside]
  exact @scan_stop ⟨jchar '<' :: text, some true, _⟩ rest true rfl

theorem textTokens_tag {text : JString} (h : Spaced text) (hgt : jchar '>' ∉ text)
    (rest : JString) : textTokens (jchar '<' :: text ++ jchar '>' :: rest) =
      (jchar '<' :: text) :: textTokens rest :=
  textTokens_token (scan_tag h hgt rest)

/-- The name of an opening tag. -/
structure TagName (name : JString) : Prop where
  spaced : Spaced name
  gt : jchar '>' ∉ name
  slash : name.head? ≠ some (jchar '/')
  text : name ≠ jtext "text"

theorem textTokens_open {name : JString} (h : TagName name) (rest : JString) :
    textTokens (jchar '<' :: name ++ jchar '>' :: rest) =
      (jchar '<' :: name) :: textTokens rest :=
  textTokens_tag h.spaced h.gt rest

theorem textTokens_close {name : JString} (h : Spaced name) (hgt : jchar '>' ∉ name)
    (rest : JString) : textTokens (jchar '<' :: (jchar '/' :: name ++ jchar '>' :: rest)) =
      (jtext "</" ++ name) :: textTokens rest := by
  refine textTokens_tag (h.cons (by decide)) ?_ rest
  intro hmem
  rcases List.mem_cons.mp hmem with he | hmem
  · exact absurd he (by decide)
  · exact hgt hmem

/-! ## Texts -/

/-- The token of a text, from the tag before it to the tag behind it. -/
def runToken (run : JString) : JString :=
  match scan run .start with
  | .token predata _ => predata
  | .ended st => st.predata

/-- Nothing comes of blanks. -/
def runTokens (run : JString) : List JString := if solid run = [] then [] else [runToken run]

theorem textTokens_run {run : JString} (h : jchar '<' ∉ run) (r : JString) :
    textTokens (run ++ jchar '<' :: r) = runTokens run ++ textTokens (jchar '<' :: r) := by
  unfold runTokens
  split
  · case isTrue hnil => exact textTokens_blanks_cons (solid_eq_nil.mp hnil) blank_lt
  · case isFalse hne =>
      obtain ⟨st, hscan, htag, -⟩ := scan_text h hne
      have htoken : scan (run ++ jchar '<' :: r) .start = .token st.predata (jchar '<' :: r) :=
        (scan_append_ended hscan).trans (scan_stop htag)
      rw [textTokens_token htoken, runToken, hscan]
      rfl

/-- What a text looks like to the reader. -/
theorem runToken_spec {run : JString} (h : jchar '<' ∉ run) (hne : solid run ≠ []) :
    runToken run ≠ [] ∧ (runToken run).head? ≠ some (jchar '<') ∧
      solid (runToken run) = solid run ∧
      ∃ c, (runToken run).head? = some c ∧ isBlank c = false := by
  obtain ⟨st, hscan, -, hsolid⟩ := scan_text h hne
  have htoken : runToken run = st.predata := by rw [runToken, hscan]
  rcases blanks_or_token run with hall | ⟨u, c, v, rfl, hu, hc⟩
  · exact absurd (solid_eq_nil.mpr hall) hne
  have hhead : st.predata.head? = some c := by
    rw [scan_first hu hc] at hscan
    exact head_of_collected ((scan_collected v (.first c)).2 st hscan)
  have hlt : c ≠ jchar '<' := fun he => h (by simp [he])
  rw [htoken]
  refine ⟨?_, ?_, hsolid, c, hhead, hc⟩
  · intro hnil
    rw [hnil] at hhead
    cases hhead
  · rw [hhead]
    exact fun he => hlt (Option.some.inj he)

/-! ## Fuel -/

theorem readTreeLoop_suffix (fuel : Nat) (tagname : JString) (lines : List JString)
    (tree : List XmlTree) : (readTreeLoop fuel tagname lines tree).2 <:+ lines := by
  induction fuel generalizing tagname lines tree with
  | zero => exact List.suffix_refl _
  | succ fuel ih =>
      match lines with
      | [] => exact List.suffix_refl _
      | [line] => exact List.nil_suffix
      | line :: next :: lines =>
          rw [readTreeLoop.eq_def]
          dsimp only
          have hcons := List.suffix_cons line (next :: lines)
          split
          · split
            · exact hcons
            · exact (ih _ _ _).trans hcons
          · split
            · split
              · exact (ih _ _ _).trans hcons
              · exact ((ih _ _ _).trans (ih _ _ _)).trans hcons
            · split
              · exact (ih _ _ _).trans hcons
              · exact (ih _ _ _).trans hcons

theorem readTreeLoop_length (fuel : Nat) (tagname : JString) (lines : List JString)
    (tree : List XmlTree) : (readTreeLoop fuel tagname lines tree).2.length ≤ lines.length :=
  (readTreeLoop_suffix fuel tagname lines tree).length_le

/-- More fuel than lines makes no difference. -/
theorem readTreeLoop_fuel {fuel fuel' : Nat} {lines : List JString} (tagname : JString)
    (tree : List XmlTree) (h : lines.length < fuel) (h' : lines.length < fuel') :
    readTreeLoop fuel tagname lines tree = readTreeLoop fuel' tagname lines tree := by
  induction fuel generalizing fuel' tagname lines tree with
  | zero => omega
  | succ fuel ih =>
      obtain ⟨fuel', rfl⟩ := Nat.exists_eq_succ_of_ne_zero (show fuel' ≠ 0 by omega)
      match lines, h, h' with
      | [], _, _ => rfl
      | [line], _, _ => rfl
      | line :: next :: lines, h, h' =>
          rw [List.length_cons] at h h'
          have hnext : ∀ tagname tree, readTreeLoop fuel tagname (next :: lines) tree =
              readTreeLoop fuel' tagname (next :: lines) tree :=
            fun tagname tree => ih tagname tree (by omega) (by omega)
          have hsub : ∀ tagname name tree,
              readTreeLoop fuel tagname (readTreeLoop fuel' name (next :: lines) []).2 tree =
                readTreeLoop fuel' tagname (readTreeLoop fuel' name (next :: lines) []).2 tree := by
            intro tagname name tree
            have := readTreeLoop_length fuel' name (next :: lines) []
            exact ih tagname tree (by omega) (by omega)
          rw [readTreeLoop.eq_def, readTreeLoop.eq_def (fuel' + 1)]
          dsimp only
          simp only [hnext]
          split
          · rfl
          · split
            · split
              · exact hnext _ _
              · exact hsub _ _ _
            · rfl

/-! ## The kinds of lines -/

section

variable {tagname : JString} {lines : List JString} {tree : List XmlTree}

theorem readTree_close :
    readTree tagname ((jtext "</" ++ tagname) :: lines) tree = (tree, lines) := by
  have hopen : (jtext "</").isPrefixOf (jtext "</" ++ tagname) = true :=
    List.isPrefixOf_iff_prefix.mpr (List.prefix_append _ _)
  cases lines with
  | nil => rfl
  | cons line lines =>
      rw [readTree, readTreeLoop.eq_def]
      dsimp only
      rw [if_pos hopen, if_pos rfl]

theorem readTree_open {name : JString} (hname : name.head? ≠ some (jchar '/'))
    (htext : name ≠ jtext "text") (hlines : lines ≠ []) :
    readTree tagname ((jchar '<' :: name) :: lines) tree =
      readTree tagname (readTree name lines []).2
        (if (readTree name lines []).1.length > 0 then
          tree ++ [.list name (readTree name lines []).1] else tree) := by
  have hclose : ¬ (jtext "</").isPrefixOf (jchar '<' :: name) = true := by
    intro h
    obtain ⟨rest, hrest⟩ := List.isPrefixOf_iff_prefix.mp h
    apply hname
    have : name = jchar '/' :: rest := (List.cons.inj hrest).2.symm
    rw [this]
    rfl
  have hopen : (jtext "<").isPrefixOf (jchar '<' :: name) = true :=
    List.isPrefixOf_iff_prefix.mpr ⟨name, rfl⟩
  obtain ⟨line, lines, rfl⟩ := List.exists_cons_of_ne_nil hlines
  have hlen := readTreeLoop_length ((line :: lines).length + 1) name (line :: lines) []
  rw [readTree, readTreeLoop.eq_def]
  dsimp only
  rw [if_neg hclose, if_pos hopen, List.tail_cons, if_neg htext]
  exact readTreeLoop_fuel _ _ (by simpa [Nat.lt_succ_iff, readTree] using hlen) (Nat.lt_succ_self _)

/-- What is added for a text. -/
def flush (run : JString) : List XmlTree :=
  if solid run = [] then [] else readText (runToken run)

theorem readTree_text {line : JString} (hne : line ≠ []) (hlt : line.head? ≠ some (jchar '<'))
    (hlines : lines ≠ []) :
    readTree tagname (line :: lines) tree = readTree tagname lines (tree ++ readText line) := by
  have htag : ∀ rest, line ≠ jchar '<' :: rest := by
    rintro rest rfl
    exact hlt rfl
  have hclose : ¬ (jtext "</").isPrefixOf line = true := by
    intro h
    obtain ⟨rest, hrest⟩ := List.isPrefixOf_iff_prefix.mp h
    exact htag _ hrest.symm
  have hopen : ¬ (jtext "<").isPrefixOf line = true := by
    intro h
    obtain ⟨rest, hrest⟩ := List.isPrefixOf_iff_prefix.mp h
    exact htag _ hrest.symm
  obtain ⟨next, lines, rfl⟩ := List.exists_cons_of_ne_nil hlines
  rw [readTree, readTreeLoop.eq_def]
  dsimp only
  rw [if_neg hclose, if_neg hopen, if_pos (List.length_pos_iff.mpr hne)]
  rfl

theorem readTree_run {run : JString} (h : jchar '<' ∉ run) (hlines : lines ≠ []) :
    readTree tagname (runTokens run ++ lines) tree = readTree tagname lines (tree ++ flush run) := by
  unfold runTokens flush
  split
  · rw [List.nil_append, List.append_nil]
  · case isFalse hne =>
      obtain ⟨hnil, hlt, -⟩ := runToken_spec h hne
      exact readTree_text hnil hlt hlines

end

end Freehal.Xml
