import Mathlib.Data.List.TakeWhile
import Freehal.Xml.XmlStreamIterator

/-!
# The inner loop of `next`

What `scan` makes of blanks, of tags and of texts, and in which state the end of the buffer
leaves it.
-/

namespace Freehal.Xml

variable {st st' : Scan} {text u v : JString}

/-! ## Blanks -/

theorem blank_lt : isBlank (jchar '<') = false := by decide

theorem blank_gt : isBlank (jchar '>') = false := by decide

theorem gt_ne_lt : jchar '>' ≠ jchar '<' := by decide

theorem not_mem_blanks {num : JChar} (hu : ∀ c ∈ u, isBlank c) (hb : isBlank num = false) :
    num ∉ u := by
  intro h
  have := hu num h
  rw [hb] at this
  cases this

theorem dropWhile_blanks {num : JChar} (hu : ∀ c ∈ u, isBlank c) (hb : isBlank num = false) :
    (u ++ num :: v).dropWhile isBlank = num :: v := by
  rw [List.dropWhile_append_of_pos hu, List.dropWhile_cons_of_neg (by simp [hb])]

/-- Blanks, then a token or nothing. -/
theorem blanks_or_token (text : JString) :
    (∀ c ∈ text, isBlank c) ∨
      ∃ u num v, text = u ++ num :: v ∧ (∀ c ∈ u, isBlank c) ∧ isBlank num = false := by
  induction text with
  | nil => exact Or.inl fun _ h => (by cases h)
  | cons num text ih =>
      cases hb : isBlank num with
      | false => exact Or.inr ⟨[], num, text, rfl, fun _ h => (by cases h), hb⟩
      | true =>
          rcases ih with hall | ⟨u, c, v, rfl, hu, hc⟩
          · exact Or.inl fun c hc => (List.mem_cons.mp hc).elim (fun he => he ▸ hb) (hall c)
          · refine Or.inr ⟨num :: u, c, v, rfl, ?_, hc⟩
            exact fun d hd => (List.mem_cons.mp hd).elim (fun he => he ▸ hb) (hu d)

theorem scan_append_ended (h : scan u st = .ended st') : scan (u ++ v) st = scan v st' := by
  induction u generalizing st with
  | nil =>
      cases h
      rfl
  | cons num u ih =>
      simp only [List.cons_append, scan] at h ⊢
      split at h
      · case isTrue hb =>
          rw [if_pos hb]
          exact ih h
      · case isFalse hb =>
          rw [if_neg hb]
          split at h
          · cases h
          · case isFalse htag =>
              rw [if_neg htag]
              split at h
              · cases h
              · case isFalse htext =>
                  rw [if_neg htext]
                  exact ih h

theorem scan_append_token {t r : JString} (h : scan u st = .token t r) :
    scan (u ++ v) st = .token t (r ++ v) := by
  induction u generalizing st with
  | nil => cases h
  | cons num u ih =>
      simp only [List.cons_append, scan] at h ⊢
      split at h
      · case isTrue hb =>
          rw [if_pos hb]
          exact ih h
      · case isFalse hb =>
          rw [if_neg hb]
          split at h
          · case isTrue htag =>
              cases h
              rw [if_pos htag]
          · case isFalse htag =>
              rw [if_neg htag]
              split at h
              · case isTrue htext =>
                  cases h
                  rw [if_pos htext, List.cons_append]
              · case isFalse htext =>
                  rw [if_neg htext]
                  exact ih h

@[simp] theorem blank_inTagname (st : Scan) : st.blank.inTagname = st.inTagname := rfl

@[simp] theorem blank_blank (st : Scan) : st.blank.blank = st.blank := by
  simp [Scan.blank]

theorem scan_blanks (hu : ∀ c ∈ u, isBlank c) :
    scan u st = .ended (if u = [] then st else st.blank) := by
  induction u generalizing st with
  | nil => rfl
  | cons num u ih =>
      rw [scan, if_pos (hu num (by simp)), ih fun c hc => hu c (by simp [hc])]
      by_cases h : u = [] <;> simp [h]

theorem scan_token_length {t r : JString} (h : scan u st = .token t r) : r.length ≤ u.length := by
  induction u generalizing st with
  | nil => cases h
  | cons num u ih =>
      simp only [scan] at h
      rw [List.length_cons]
      split at h
      · have := ih h
        omega
      · split at h
        · cases h
          omega
        · split at h
          · cases h
            simp
          · have := ih h
            omega

/-! ## Characters that are no blanks -/

/-- The characters of a text without the blanks. -/
def solid (text : JString) : JString := text.filter (!isBlank ·)

theorem solid_append (u v : JString) : solid (u ++ v) = solid u ++ solid v := List.filter_append _ _

theorem solid_cons {num : JChar} (hb : isBlank num = false) (u : JString) :
    solid (num :: u) = num :: solid u := by
  simp [solid, hb]

theorem solid_eq_nil : solid u = [] ↔ ∀ c ∈ u, isBlank c := by
  simp [solid, List.filter_eq_nil_iff]

theorem solid_blanks_cons {num : JChar} (hu : ∀ c ∈ u, isBlank c) (hb : isBlank num = false) :
    solid (u ++ num :: v) = num :: solid v := by
  rw [solid_append, solid_eq_nil.mpr hu, solid_cons hb]
  rfl

theorem mem_solid {num : JChar} : num ∈ solid u ↔ num ∈ u ∧ isBlank num = false := by
  simp [solid]

theorem mem_solid_of_head {num : JChar} (hb : isBlank num = false) (h : u.head? = some num) :
    num ∈ solid u :=
  mem_solid.mpr ⟨List.mem_of_mem_head? h, hb⟩

@[simp] theorem solid_blank (st : Scan) : solid st.blank.predata = solid st.predata := by
  have hspace : isBlank (jchar ' ') = true := by decide
  unfold Scan.blank
  dsimp only
  split <;> simp [solid, hspace]

/-! ## Tags and texts -/

/-- The character that ends a tag or a text. -/
def stop (tag : Bool) : JChar := if tag then jchar '>' else jchar '<'

theorem blank_stop (tag : Bool) : isBlank (stop tag) = false := by cases tag <;> decide

/-- A character within a tag or a text. -/
theorem scan_inside_cons {tag : Bool} {num : JChar} (ht : st.inTagname = some tag)
    (hb : isBlank num = false) (hnum : num ≠ stop tag) :
    scan (num :: u) st = scan u ⟨st.predata ++ [num], some tag, false⟩ := by
  have hb' : ¬ isBlank num = true := by simp [hb]
  rw [scan, if_neg hb', ht]
  cases tag with
  | true =>
      have hnum : num ≠ jchar '>' := hnum
      simp [hnum]
  | false =>
      have hnum : num ≠ jchar '<' := hnum
      simp [hnum]

/-- Within a tag or a text nothing but blanks is lost. -/
theorem scan_inside {tag : Bool} (ht : st.inTagname = some tag) (hu : stop tag ∉ u) :
    ∃ st', scan u st = .ended st' ∧ st'.inTagname = some tag ∧
      solid st'.predata = solid st.predata ++ solid u := by
  induction u generalizing st with
  | nil => exact ⟨st, rfl, ht, by simp [solid]⟩
  | cons num u ih =>
      have hnum : num ≠ stop tag := fun he => hu (by simp [he])
      have hu' : stop tag ∉ u := fun he => hu (by simp [he])
      cases hb : isBlank num with
      | true =>
          obtain ⟨st', hscan, htag, hsolid⟩ := @ih st.blank ht hu'
          refine ⟨st', by rw [scan, if_pos hb, hscan], htag, ?_⟩
          rw [hsolid, solid_blank]
          simp [solid, hb]
      | false =>
          obtain ⟨st', hscan, htag, hsolid⟩ := @ih ⟨st.predata ++ [num], some tag, false⟩ rfl hu'
          refine ⟨st', by rw [scan_inside_cons ht hb hnum, hscan], htag, ?_⟩
          rw [hsolid]
          simp [solid, hb]

/-- The end of a tag is dropped, the beginning of the next one is left. -/
theorem scan_stop {tag : Bool} (ht : st.inTagname = some tag) :
    scan (stop tag :: v) st = .token st.predata (if tag then v else stop tag :: v) := by
  have hb : ¬ isBlank (stop tag) = true := by simp [blank_stop]
  rw [scan, if_neg hb, ht]
  cases tag <;> simp [stop]

theorem scan_inside_stop {tag : Bool} (ht : st.inTagname = some tag) (hu : stop tag ∉ u) :
    ∃ st', scan (u ++ stop tag :: v) st =
        .token st'.predata (if tag then v else stop tag :: v) ∧
      scan u st = .ended st' ∧ solid st'.predata = solid st.predata ++ solid u := by
  obtain ⟨st', hscan, htag, hsolid⟩ := scan_inside ht hu
  exact ⟨st', (scan_append_ended hscan).trans (scan_stop htag), hscan, hsolid⟩

theorem scan_inside_ended {tag : Bool} (ht : st.inTagname = some tag)
    (h : scan u st = .ended st') : stop tag ∉ u := by
  intro hmem
  obtain ⟨x, y, rfl, hx⟩ := List.eq_append_cons_of_mem hmem
  obtain ⟨st₁, htoken, -, -⟩ := scan_inside_stop (v := y) ht hx
  rw [htoken] at h
  cases h

/-- The state after the first character of a token. -/
def Scan.first (num : JChar) : Scan := ⟨[num], some (num = jchar '<'), false⟩

theorem scan_first {num : JChar} (hu : ∀ c ∈ u, isBlank c) (hb : isBlank num = false) :
    scan (u ++ num :: v) .start = scan v (.first num) := by
  have hblank : (if u = [] then Scan.start else Scan.start.blank).predata = [] ∧
      (if u = [] then Scan.start else Scan.start.blank).inTagname = none := by
    split <;> exact ⟨rfl, rfl⟩
  have hb' : ¬ isBlank num = true := by simp [hb]
  rw [scan_append_ended (scan_blanks hu), scan, if_neg hb', hblank.1, hblank.2]
  by_cases hlt : num = jchar '<'
  · subst hlt
    simp [Scan.first, gt_ne_lt.symm]
  · simp [Scan.first, hlt]

/-- A token takes a character at least. -/
theorem scan_start_length {t r : JString} (h : scan u .start = .token t r) :
    r.length < u.length := by
  rcases blanks_or_token u with hall | ⟨u, num, v, rfl, hu, hb⟩
  · rw [scan_blanks hall] at h
    cases h
  · rw [scan_first hu hb] at h
    have := scan_token_length h
    simp only [List.length_append, List.length_cons]
    omega

/-- A text without the beginning of a tag. -/
theorem scan_text (hu : jchar '<' ∉ u) (hne : solid u ≠ []) :
    ∃ st, scan u .start = .ended st ∧ st.inTagname = some false ∧ solid st.predata = solid u := by
  rcases blanks_or_token u with hall | ⟨u, num, v, rfl, hblank, hb⟩
  · exact absurd (solid_eq_nil.mpr hall) hne
  · have hnum : num ≠ jchar '<' := fun he => hu (by simp [he])
    have hv : stop false ∉ v := fun hmem => hu (List.mem_append_right _ (List.mem_cons_of_mem _ hmem))
    obtain ⟨st, hscan, htag, hsolid⟩ :=
      @scan_inside (Scan.first num) v false (by simp [Scan.first, hnum]) hv
    refine ⟨st, by rw [scan_first hblank hb, hscan], htag, ?_⟩
    rw [hsolid, solid_append, solid_eq_nil.mpr hblank]
    simp [Scan.first, solid, hb]

theorem scan_text_tag (hu : jchar '<' ∉ u) (hne : solid u ≠ []) (w : JString) :
    ∃ t, scan (u ++ jchar '<' :: w) .start = .token t (jchar '<' :: w) ∧ solid t = solid u := by
  obtain ⟨st, hscan, htag, hsolid⟩ := scan_text hu hne
  exact ⟨st.predata, (scan_append_ended hscan).trans (scan_stop htag), hsolid⟩

/-! ## What was collected -/

theorem collected_blank (st : Scan) : st.predata <+: st.blank.predata := by
  unfold Scan.blank
  dsimp only
  split
  · exact List.prefix_append _ _
  · exact List.prefix_refl _

/-- What was collected stays in front. -/
theorem scan_collected (u : JString) (st : Scan) :
    (∀ t r, scan u st = .token t r → st.predata <+: t) ∧
    ∀ st', scan u st = .ended st' → st.predata <+: st'.predata := by
  induction u generalizing st with
  | nil =>
      refine ⟨fun t r h => (by cases h), ?_⟩
      intro st' h
      cases h
      exact List.prefix_refl _
  | cons num u ih =>
      simp only [scan]
      split
      · exact ⟨fun t r h => (collected_blank st).trans ((ih st.blank).1 t r h),
          fun st' h => (collected_blank st).trans ((ih st.blank).2 st' h)⟩
      · split
        · refine ⟨?_, fun st' h => (by cases h)⟩
          intro t r h
          cases h
          exact List.prefix_refl _
        · split
          · refine ⟨?_, fun st' h => (by cases h)⟩
            intro t r h
            cases h
            exact List.prefix_refl _
          · have hpre := List.prefix_append st.predata [num]
            exact ⟨fun t r h => hpre.trans ((ih _).1 t r h),
              fun st' h => hpre.trans ((ih _).2 st' h)⟩

theorem head_of_collected {num : JChar} {t : JString} (h : [num] <+: t) : t.head? = some num := by
  obtain ⟨t', rfl⟩ := h
  rfl

/-! ## The end of the buffer -/

/-- Whether the last character was a blank. -/
theorem scan_isSpace (h : scan u st = .ended st') :
    st'.isSpace = u.getLast?.elim st.isSpace isBlank := by
  induction u generalizing st with
  | nil =>
      cases h
      rfl
  | cons num u ih =>
      have hlast : ∀ space, space = isBlank num →
          u.getLast?.elim space isBlank = (num :: u).getLast?.elim st.isSpace isBlank := by
        rintro space rfl
        rw [List.getLast?_cons]
        cases u.getLast? <;> rfl
      simp only [scan] at h
      split at h
      · case isTrue hb => exact (ih h).trans (hlast true hb.symm)
      · case isFalse hb =>
          split at h
          · cases h
          · split at h
            · cases h
            · exact (ih h).trans (hlast false (by simpa using hb))

theorem holdsToken_cons {num : JChar} (hu : ∀ c ∈ u, isBlank c) (hb : isBlank num = false) :
    HoldsToken (u ++ num :: v) ↔ stop (num = jchar '<') ∈ v := by
  unfold HoldsToken
  rw [dropWhile_blanks hu hb]
  constructor
  · rintro ⟨num', rest, heq, h⟩
    cases heq
    split at h
    · case isTrue hlt => simpa [stop, hlt] using h
    · case isFalse hlt => simpa [stop, hlt] using h
  · intro h
    refine ⟨num, v, rfl, ?_⟩
    split
    · case isTrue hlt => simpa [stop, hlt] using h
    · case isFalse hlt => simpa [stop, hlt] using h

theorem not_holdsToken_of_ended (h : scan u .start = .ended st) : ¬ HoldsToken u := by
  rcases blanks_or_token u with hall | ⟨u, num, v, rfl, hu, hb⟩
  · rintro ⟨num, rest, heq, -⟩
    rw [List.dropWhile_eq_nil_iff.mpr hall] at heq
    cases heq
  · rw [holdsToken_cons hu hb]
    rw [scan_first hu hb] at h
    exact scan_inside_ended rfl h

theorem holdsToken_of_token {t r : JString} (h : scan u .start = .token t r) : HoldsToken u := by
  rcases blanks_or_token u with hall | ⟨u, num, v, rfl, hu, hb⟩
  · rw [scan_blanks hall] at h
    cases h
  · rw [holdsToken_cons hu hb]
    by_contra hstop
    obtain ⟨st', hended, -, -⟩ := @scan_inside (.first num) v (num = jchar '<') rfl hstop
    rw [scan_first hu hb, hended] at h
    cases h

/-- The state at the end of a buffer with more than blanks. -/
theorem ended_inside {num : JChar} (hu : ∀ c ∈ u, isBlank c) (hb : isBlank num = false)
    (h : scan (u ++ num :: v) .start = .ended st) :
    st.inTagname = some (decide (num = jchar '<')) ∧ st.predata ≠ [] ∧
      st.isSpace = (u ++ num :: v).getLast?.elim false isBlank := by
  have hfirst := h
  rw [scan_first hu hb] at hfirst
  have hstop := @scan_inside_ended _ _ _ (decide (num = jchar '<')) rfl hfirst
  obtain ⟨st', hended, htag, -⟩ := @scan_inside (.first num) v (num = jchar '<') rfl hstop
  rw [hended] at hfirst
  cases hfirst
  refine ⟨htag, ?_, scan_isSpace h⟩
  have hpre := (scan_collected v (.first num)).2 st hended
  intro hnil
  rw [hnil] at hpre
  simp [Scan.first] at hpre

theorem blank_of_isSpace (h : st.isSpace = true) : st.blank.predata = st.predata := by
  simp [Scan.blank, h]

theorem isSpace_of_blank (hne : st.predata ≠ []) (h : st.blank.predata = st.predata) :
    st.isSpace = true := by
  by_contra hspace
  have hpos := List.length_pos_iff.mpr hne
  simp [Scan.blank, hspace, hpos] at h

/-- A text that ends where the buffer does is complete. -/
theorem scan_of_between (hended : scan u .start = .ended st) (h : BetweenTokens u v) :
    ∃ p w, v = p ++ jchar '<' :: w ∧ (∀ c ∈ p, isBlank c) ∧
      scan v st = .token st.predata (jchar '<' :: w) := by
  obtain ⟨⟨num, rest, hnum, hne⟩, hhead, hcut⟩ := h
  rcases blanks_or_token v with hall | ⟨p, c, w, rfl, hp, hc⟩
  · rw [List.dropWhile_eq_nil_iff.mpr hall] at hhead
    cases hhead
  rw [dropWhile_blanks hp hc] at hhead
  obtain rfl : c = jchar '<' := Option.some.inj hhead
  refine ⟨p, w, rfl, hp, ?_⟩
  rcases blanks_or_token u with hall | ⟨x, c, y, rfl, hx, hc⟩
  · rw [List.dropWhile_eq_nil_iff.mpr hall] at hnum
    cases hnum
  rw [dropWhile_blanks hx hc] at hnum
  obtain ⟨rfl, -⟩ := List.cons.inj hnum
  obtain ⟨htag, -, hspace⟩ := ended_inside hx hc hended
  have htag : st.inTagname = some false := by simpa [hne] using htag
  by_cases hnil : p = []
  · subst hnil
    exact scan_stop htag
  · rw [scan_append_ended (scan_blanks hp), if_neg hnil]
    have hlast : st.isSpace = true := by
      rcases hcut with hcut | ⟨d, hd, hblank⟩
      · exfalso
        obtain ⟨d, p', rfl⟩ := List.exists_cons_of_ne_nil hnil
        cases hcut
        have := hp (jchar '<') (by simp)
        rw [blank_lt] at this
        cases this
      · rw [hspace, hd]
        exact hblank
    rw [← blank_of_isSpace hlast]
    exact @scan_stop st.blank _ false htag

/-- Without the second half of a text the first one is the token only where the buffer ends
between tokens. -/
theorem between_of_scan {r : JString} (hended : scan u .start = .ended st)
    (htag : st.inTagname = some false) (h : scan v st = .token st.predata r) :
    BetweenTokens u v := by
  rcases blanks_or_token u with hall | ⟨x, c, y, rfl, hx, hc⟩
  · rw [scan_blanks hall] at hended
    cases hended
    split at htag <;> cases htag
  obtain ⟨htag', hne, hspace⟩ := ended_inside hx hc hended
  have hlt : c ≠ jchar '<' := by
    rintro rfl
    rw [htag] at htag'
    simp at htag'
  have hmem : jchar '<' ∈ v := by
    by_contra hmem
    obtain ⟨st', hscan, -, -⟩ := @scan_inside st v false htag hmem
    rw [hscan] at h
    cases h
  obtain ⟨p, w, rfl, hp⟩ := List.eq_append_cons_of_mem hmem
  obtain ⟨st', htoken, hscan, hsolid⟩ := @scan_inside_stop st p w false htag hp
  have hpredata : st'.predata = st.predata := by
    have heq := htoken.symm.trans h
    rw [Scanned.token.injEq] at heq
    exact heq.1
  have hblank : ∀ c ∈ p, isBlank c := by
    rw [hpredata] at hsolid
    exact solid_eq_nil.mp (List.self_eq_append_right.mp hsolid)
  refine ⟨⟨c, y, dropWhile_blanks hx hc, hlt⟩, by rw [dropWhile_blanks hblank blank_lt]; rfl, ?_⟩
  by_cases hnil : p = []
  · subst hnil
    exact Or.inl rfl
  · right
    rw [scan_blanks hblank, if_neg hnil] at hscan
    cases hscan
    have hlast := isSpace_of_blank hne hpredata
    rw [hspace] at hlast
    cases hget : (x ++ c :: y).getLast? with
    | none =>
        rw [hget] at hlast
        cases hlast
    | some d =>
        rw [hget] at hlast
        exact ⟨d, rfl, hlast⟩

end Freehal.Xml
