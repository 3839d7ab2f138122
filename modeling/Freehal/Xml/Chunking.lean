import Freehal.Lib.Text
import Freehal.Xml.Lemmas.Tokens

/-!
# Tokens and the pieces of a stream

Which ways of cutting a text keep its tokens: those where every call of `next` finds enough in
its buffer.
-/

namespace Freehal.Xml

open XmlStreamIterator

variable {st st' : Scan} {text u v : JString}

/-! ## A bracket that is left over -/

/-- The end of a tag that was cut off before it begins the next text, and no way of cutting the
rest makes up for it. -/
theorem rest_ne_of_bracket {it : XmlStreamIterator} {r : JString} (hu : ∀ c ∈ u, isBlank c)
    (h : it.remaining = u ++ jchar '>' :: r) : it.rest ≠ textTokens r := by
  intro heq
  have hne : it.remaining ≠ [] := by
    rw [h]
    simp
  rw [← fillBuffer_remaining, remaining] at h
  have hu_lt := not_mem_blanks hu blank_lt
  generalize hb : it.fillBuffer.buffer = b at h
  generalize hv : it.fillBuffer.input.flatten = v at h
  have hrest : remaining ⟨it.fillBuffer.input, []⟩ = v := hv
  by_cases hblank : ∀ c ∈ b, isBlank c
  · -- The buffer holds blanks only: the token is empty, but more tokens follow.
    rw [rest_ended hne (by rw [hb]; exact scan_blanks hblank)] at heq
    have hnil : (if b = [] then Scan.start else Scan.start.blank).predata = [] := by
      split <;> rfl
    rw [hnil] at heq
    refine rest_ne_nil ?_ (textTokens_empty heq.symm)
    rw [hrest]
    rintro rfl
    rw [List.append_nil] at h
    exact not_mem_blanks hblank blank_gt (by simp [h])
  have hsolid : solid b ≠ [] := fun hnil => hblank (solid_eq_nil.mp hnil)
  have hbracket : ∀ z, solid (u ++ jchar '>' :: z) = jchar '>' :: solid z :=
    fun z => solid_blanks_cons hu blank_gt
  have hinner : ∀ z, jchar '<' ∉ z → jchar '<' ∉ u ++ jchar '>' :: z := by
    intro z hz hmem
    rcases List.mem_append.mp hmem with hmem | hmem
    · exact hu_lt hmem
    · exact (List.mem_cons.mp hmem).elim gt_ne_lt.symm hz
  by_cases hlt : jchar '<' ∈ b
  · -- The text ends in the buffer, with one bracket too many.
    obtain ⟨x, y, rfl, hx⟩ := List.eq_append_cons_of_mem hlt
    have hr : jchar '<' ∈ r := by
      by_contra hr
      exact hinner r hr (h ▸ by simp)
    obtain ⟨z, w, rfl, hz⟩ := List.eq_append_cons_of_mem hr
    have hxz : x = u ++ jchar '>' :: z := by
      have h' : x ++ jchar '<' :: (y ++ v) = (u ++ jchar '>' :: z) ++ jchar '<' :: w := by
        simpa using h
      exact (Lib.append_sep_inj hx (hinner z hz) h').1
    obtain ⟨t, hscan, ht⟩ := scan_text_tag (u := x) hx (by rw [hxz, hbracket]; simp) y
    obtain ⟨t', ts, htokens, hempty, hfull⟩ := textTokens_before_tag hz w
    rw [rest_token (by rw [hb]; exact hscan), htokens] at heq
    obtain ⟨rfl, -⟩ := List.cons.inj heq
    by_cases hz' : solid z = []
    · have hmem := hempty hz'
      rw [ht] at hmem
      exact hx (mem_solid.mp hmem).1
    · have hlen := congrArg List.length (ht.symm.trans (hfull hz').1)
      rw [hxz, hbracket] at hlen
      simp at hlen
  · obtain ⟨st, hscan, -, ht⟩ := scan_text hlt hsolid
    rw [rest_ended hne (by rw [hb]; exact hscan)] at heq
    by_cases hr : jchar '<' ∈ r
    · obtain ⟨z, w, rfl, hz⟩ := List.eq_append_cons_of_mem hr
      obtain ⟨t', ts, htokens, hempty, hfull⟩ := textTokens_before_tag hz w
      rw [htokens] at heq
      obtain ⟨rfl, htail⟩ := List.cons.inj heq
      by_cases hz' : solid z = []
      · have hmem := hempty hz'
        rw [ht] at hmem
        exact hlt (mem_solid.mp hmem).1
      obtain ⟨hbz, rfl⟩ := hfull hz'
      rw [ht] at hbz
      -- The text goes on behind the buffer, so the next token is no tag.
      have hcut : ∃ a, u ++ jchar '>' :: z = b ++ a ∧ v = a ++ jchar '<' :: w := by
        have h' : b ++ v = (u ++ jchar '>' :: z) ++ jchar '<' :: w := by
          rw [h, List.append_assoc, List.cons_append]
        rcases List.append_eq_append_iff.mp h' with ⟨a, ha, hv'⟩ | ⟨a, rfl, -⟩
        · exact ⟨a, ha, hv'⟩
        · have hlen := congrArg List.length hbz
          rw [solid_append, hbracket] at hlen
          simp only [List.length_append, List.length_cons] at hlen
          omega
      obtain ⟨a, ha, hva⟩ := hcut
      have halt : jchar '<' ∉ a := fun hmem => hinner z hz (ha ▸ List.mem_append_right b hmem)
      rcases blanks_or_token a with hall | ⟨p, num, q, rfl, hp, hnum⟩
      · have hlen := congrArg (fun text => (solid text).length) ha
        simp only [hbracket, solid_append, solid_eq_nil.mpr hall, hbz, List.append_nil,
          List.length_cons] at hlen
        omega
      · obtain ⟨t₁, ts₁, hts₁, ht₁⟩ := rest_head (v := q ++ jchar '<' :: w) hp hnum
          (hrest.trans (by rw [hva, List.append_assoc, List.cons_append]))
        obtain ⟨t₂, ts₂, hts₂, ht₂⟩ := textTokens_head (u := []) (v := w) (by simp) blank_lt
        rw [List.nil_append] at hts₂
        rw [hts₁, hts₂] at htail
        obtain ⟨rfl, -⟩ := List.cons.inj htail
        rcases ht₁ with ⟨rfl, -⟩ | ht₁
        · cases ht₂
        · rw [ht₁] at ht₂
          cases ht₂
          exact halt (by simp)
    · -- A text up to the end: nothing may be left, and the bracket is in the text.
      obtain ⟨hpredata, hnil⟩ := textTokens_no_tag hr heq.symm
      have hvnil : v = [] := by
        by_contra hv'
        exact rest_ne_nil (by rwa [hrest]) hnil
      rw [hvnil, List.append_nil] at h
      rw [ht, h, hbracket] at hpredata
      have hlen := congrArg List.length hpredata
      simp at hlen

/-! ## Cut and uncut streams -/

/-- A token that is cut off has another one behind it, which the uncut text does not have. -/
theorem rest_ne_of_cut {it : XmlStreamIterator} (h : it.remaining = v) (hv : v ≠ [])
    (hended : scan u .start = .ended st) (hcut : ¬ BetweenTokens u v) :
    st.predata :: it.rest ≠ textTokens (u ++ v) := by
  intro heq
  have hne : u ++ v ≠ [] := by simp [hv]
  have hit : it.rest ≠ [] := rest_ne_nil (by rwa [h])
  cases hscan : scan v st with
  | ended st' =>
      rw [textTokens_ended hne ((scan_append_ended hended).trans hscan)] at heq
      exact hit (List.cons.inj heq).2
  | token t r =>
      rw [textTokens_token ((scan_append_ended hended).trans hscan)] at heq
      obtain ⟨rfl, hrest⟩ := List.cons.inj heq
      cases htag : st.inTagname with
      | none =>
          rcases blanks_or_token u with hall | ⟨x, c, y, rfl, hx, hc⟩
          · have hnil : st.predata = [] := by
              rw [scan_blanks hall] at hended
              cases hended
              split <;> rfl
            have htokens := textTokens_token ((scan_append_ended hended).trans hscan)
            rw [hnil] at htokens
            exact hit (hrest.trans (textTokens_empty htokens))
          · rw [(ended_inside hx hc hended).1] at htag
            cases htag
      | some tag =>
          cases tag with
          | false => exact hcut (between_of_scan hended htag hscan)
          | true =>
              have hmem : jchar '>' ∈ v := by
                by_contra hmem
                obtain ⟨st', hscan', -, -⟩ := @scan_inside st v true htag hmem
                rw [hscan'] at hscan
                cases hscan
              obtain ⟨p, w, rfl, hp⟩ := List.eq_append_cons_of_mem hmem
              obtain ⟨st', htoken, -, hsolid⟩ := @scan_inside_stop st p w true htag hp
              have htoken := htoken.symm.trans hscan
              rw [Scanned.token.injEq] at htoken
              obtain ⟨hpredata, rfl⟩ := htoken
              rw [hpredata] at hsolid
              have hblank := solid_eq_nil.mp (List.self_eq_append_right.mp hsolid)
              exact rest_ne_of_bracket hblank h hrest

namespace XmlStreamIterator

variable {it : XmlStreamIterator}

/-- One call of `next`. -/
theorem rest_eq_step (hne : it.remaining ≠ []) :
    it.rest = textTokens it.remaining ↔
      it.Whole ∧ it.next.2.rest = textTokens it.next.2.remaining := by
  have hremaining := fillBuffer_remaining it
  rw [remaining] at hremaining
  cases hscan : scan it.fillBuffer.buffer .start with
  | token t r =>
      rw [rest_token hscan, ← hremaining, textTokens_token (scan_append_token hscan),
        next_of_token hscan]
      simp [Whole, holdsToken_of_token hscan, remaining]
  | ended st =>
      have hlater : remaining ⟨it.fillBuffer.input, []⟩ = it.fillBuffer.input.flatten := rfl
      rw [rest_ended hne hscan, next_of_ended hscan, hlater]
      by_cases hnil : it.fillBuffer.input.flatten = []
      · have hbuffer : it.fillBuffer.buffer = it.remaining := by
          rw [← hremaining, hnil, List.append_nil]
        rw [← hbuffer, textTokens_ended (by rwa [hbuffer]) hscan, hnil,
          rest_nil (hlater.trans hnil)]
        simp [Whole, hnil, textTokens_nil]
      · by_cases hbetween : BetweenTokens it.fillBuffer.buffer it.fillBuffer.input.flatten
        · obtain ⟨p, w, hcut, hp, htoken⟩ := scan_of_between hscan hbetween
          have hskip : textTokens it.fillBuffer.input.flatten = textTokens (jchar '<' :: w) := by
            rw [hcut]
            exact textTokens_blanks_cons hp blank_lt
          rw [← hremaining, textTokens_token ((scan_append_ended hscan).trans htoken), hskip]
          simp [Whole, hbetween]
        · have hcut := rest_ne_of_cut hlater hnil hscan hbetween
          rw [hremaining] at hcut
          have hnot : ¬ it.Whole := by
            rintro (h | h | h)
            · exact not_holdsToken_of_ended hscan h
            · exact hnil h
            · exact hbetween h
          simp only [hnot, hcut, false_and]

theorem whole_of_nil (h : it.remaining = []) : it.Whole := by
  have hremaining := fillBuffer_remaining it
  rw [h] at hremaining
  exact Or.inr (Or.inl (List.append_eq_nil_iff.mp hremaining).2)

theorem next_nil (h : it.remaining = []) : it.next.2.remaining = [] := by
  have hremaining := fillBuffer_remaining it
  rw [h] at hremaining
  obtain ⟨hbuffer, hinput⟩ := List.append_eq_nil_iff.mp hremaining
  rw [@next_of_ended .start it (by rw [hbuffer]; rfl)]
  exact hinput

theorem after_whole_of_nil (n : Nat) (h : it.remaining = []) : (it.after n).Whole := by
  induction n generalizing it with
  | zero => exact whole_of_nil h
  | succ n ih => exact ih (next_nil h)

/-- All calls of `next`. -/
theorem rest_eq_iff (it : XmlStreamIterator) :
    it.rest = textTokens it.remaining ↔ ∀ n, (it.after n).Whole := by
  induction hlen : it.remaining.length using Nat.strong_induction_on generalizing it with
  | _ len ih =>
      by_cases hnil : it.remaining = []
      · have hwhole : ∀ n, (it.after n).Whole := fun n => after_whole_of_nil n hnil
        rw [rest_nil hnil, hnil]
        exact ⟨fun _ => hwhole, fun _ => rfl⟩
      · rw [rest_eq_step hnil, ih _ (hlen ▸ next_length hnil) it.next.2 rfl]
        constructor
        · intro h n
          cases n with
          | zero => exact h.1
          | succ n => exact h.2 n
        · intro h
          exact ⟨h 0, fun n => h (n + 1)⟩

end XmlStreamIterator

/-- The tokens do not depend on how the text is cut if and only if every call of `next` finds
enough in its buffer. -/
theorem tokens_chunks (pieces : List JString) :
    tokens pieces = tokens [pieces.flatten] ↔
      ∀ n, (XmlStreamIterator.after n ⟨pieces, []⟩).Whole := by
  have hremaining : remaining ⟨pieces, []⟩ = pieces.flatten := rfl
  have htokens : tokens pieces = rest ⟨pieces, []⟩ := rfl
  rw [← rest_eq_iff, tokens_single, hremaining, htokens]

/-- A text that fills the buffer. -/
def fullText : JString := List.replicate maxBufferSize (jchar 'a')

theorem tokens_of_cut_text : ¬ ∀ pieces : List JString, tokens pieces = tokens [pieces.flatten] := by
  intro hall
  have hlt : jchar '<' ∉ fullText := by
    intro hmem
    exact absurd (List.eq_of_mem_replicate hmem) (by decide)
  have hsolid : solid fullText ≠ [] := by
    rw [fullText, show maxBufferSize = maxBufferSize - 1 + 1 from rfl, List.replicate_succ,
      solid_cons (by decide)]
    exact List.cons_ne_nil _ _
  have hfill : XmlStreamIterator.fillBuffer ⟨[fullText, [jchar 'b']], []⟩
      = ⟨[[jchar 'b']], fullText⟩ := by
    have hlen : ¬ fullText.length < maxBufferSize := by simp [fullText]
    rw [XmlStreamIterator.fillBuffer, if_pos (by decide), appendInput, if_pos (by decide),
      List.nil_append, appendInput, if_neg hlen]
  obtain ⟨st, hscan, -, -⟩ := scan_text hlt hsolid
  have hrest : rest ⟨[fullText, [jchar 'b']], []⟩
      = st.predata :: rest ⟨[[jchar 'b']], []⟩ := by
    have hended := @rest_ended st ⟨[fullText, [jchar 'b']], []⟩ (by simp [remaining])
      (by rw [hfill]; exact hscan)
    rwa [hfill] at hended
  have heq : rest ⟨[fullText, [jchar 'b']], []⟩ = textTokens (fullText ++ [jchar 'b']) := by
    have := hall [fullText, [jchar 'b']]
    rw [tokens_single] at this
    simpa [tokens, rest, remaining] using this
  have htext : jchar '<' ∉ fullText ++ [jchar 'b'] := by
    intro hmem
    rcases List.mem_append.mp hmem with hmem | hmem
    · exact hlt hmem
    · exact absurd (List.mem_singleton.mp hmem) (by decide)
  rw [hrest] at heq
  exact rest_ne_nil (by simp [remaining]) (textTokens_no_tag htext heq.symm).2

end Freehal.Xml
