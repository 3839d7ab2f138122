import Freehal.Xml.Lemmas.Scan

/-!
# The tokens of a stream and the tokens of a text

A call of `next` takes one token from the buffer. The tokens of a text are those of a buffer
that holds the whole text.
-/

namespace Freehal.Xml

variable {st st' : Scan} {text u v : JString}

/-! ## The buffer -/

namespace XmlStreamIterator

variable {it : XmlStreamIterator}

/-- What was not read yet. -/
def remaining (it : XmlStreamIterator) : JString := it.buffer ++ it.input.flatten

theorem appendInput_remaining (input : List JString) (buffer : JString) :
    (appendInput input buffer).remaining = buffer ++ input.flatten := by
  induction input generalizing buffer with
  | nil => rfl
  | cons s input ih =>
      rw [appendInput]
      split
      · simp [ih]
      · rfl

theorem appendInput_full (input : List JString) (buffer : JString) :
    (appendInput input buffer).input = [] ∨
      minBufferSize ≤ (appendInput input buffer).buffer.length := by
  induction input generalizing buffer with
  | nil => exact Or.inl rfl
  | cons s input ih =>
      rw [appendInput]
      split
      · exact ih _
      · case isFalse h =>
          right
          simp only [minBufferSize, maxBufferSize] at h ⊢
          omega

theorem fillBuffer_remaining (it : XmlStreamIterator) :
    it.fillBuffer.remaining = it.remaining := by
  unfold fillBuffer
  split
  · exact appendInput_remaining _ _
  · rfl

theorem fillBuffer_full (it : XmlStreamIterator) :
    it.fillBuffer.input = [] ∨ minBufferSize ≤ it.fillBuffer.buffer.length := by
  unfold fillBuffer
  split
  · exact appendInput_full _ _
  · case isFalse h => exact Or.inr (by omega)

/-- A buffer that was filled is not filled again. -/
@[simp] theorem fillBuffer_fillBuffer (it : XmlStreamIterator) :
    it.fillBuffer.fillBuffer = it.fillBuffer := by
  rcases fillBuffer_full it with h | h
  · rw [fillBuffer.eq_def it.fillBuffer, h]
    split
    · generalize it.fillBuffer = it' at h
      cases it'
      cases h
      rfl
    · rfl
  · rw [fillBuffer.eq_def it.fillBuffer, if_neg (by omega)]

theorem fillBuffer_buffer_eq_nil (h : it.fillBuffer.buffer = []) : it.remaining = [] := by
  rcases fillBuffer_full it with hfull | hfull
  · rw [← fillBuffer_remaining, remaining, h, hfull]
    rfl
  · rw [h] at hfull
    exact absurd hfull (by decide)

/-- The end of the buffer is seen as the end of the token. -/
theorem next_eq (it : XmlStreamIterator) : it.next =
    match scan it.fillBuffer.buffer .start with
    | .token predata rest => (predata, ⟨it.fillBuffer.input, rest⟩)
    | .ended st => (st.predata, ⟨it.fillBuffer.input, []⟩) := by
  rw [next, nextLoop]
  by_cases h : 0 < it.fillBuffer.buffer.length
  · rw [if_pos h, List.drop_zero]
    generalize scan it.fillBuffer.buffer .start = scanned
    cases scanned with
    | token t r => rfl
    | ended st => simp [nextLoop]
  · have hnil : it.fillBuffer.buffer = [] := List.length_eq_zero_iff.mp (by omega)
    rw [if_neg h, hnil]
    rfl

theorem next_fillBuffer (it : XmlStreamIterator) : it.fillBuffer.next = it.next := by
  rw [next_eq, next_eq, fillBuffer_fillBuffer]

theorem next_of_token {t r : JString} (h : scan it.fillBuffer.buffer .start = .token t r) :
    it.next = (t, ⟨it.fillBuffer.input, r⟩) := by
  rw [next_eq, h]

theorem next_of_ended (h : scan it.fillBuffer.buffer .start = .ended st) :
    it.next = (st.predata, ⟨it.fillBuffer.input, []⟩) := by
  rw [next_eq, h]

theorem next_length (h : it.remaining ≠ []) :
    it.next.2.remaining.length < it.remaining.length := by
  rw [← fillBuffer_remaining it]
  cases hscan : scan it.fillBuffer.buffer .start with
  | token t r =>
      have := scan_start_length hscan
      rw [next_of_token hscan]
      simp only [remaining, List.length_append]
      omega
  | ended st =>
      have : it.fillBuffer.buffer ≠ [] := fun hnil => h (fillBuffer_buffer_eq_nil hnil)
      have := List.length_pos_iff.mpr this
      rw [next_of_ended hscan]
      simp only [remaining, List.length_append, List.length_nil]
      omega

/-! ## All tokens -/

theorem take_nil (n : Nat) (h : it.remaining = []) : it.take n = [] := by
  have hnil : it.fillBuffer.buffer = [] := by
    have := fillBuffer_remaining it
    rw [h] at this
    exact (List.append_eq_nil_iff.mp this).1
  cases n with
  | zero => rfl
  | succ n => simp [take, hasNext, hnil]

theorem take_cons (n : Nat) (h : it.remaining ≠ []) :
    it.take (n + 1) = it.next.1 :: it.next.2.take n := by
  have hne : it.fillBuffer.buffer ≠ [] := fun hnil => h (fillBuffer_buffer_eq_nil hnil)
  have hpos : 0 < it.fillBuffer.buffer.length := List.length_pos_iff.mpr hne
  rw [take, hasNext]
  simp only [hpos, decide_true, next_fillBuffer]

theorem take_eq {m n : Nat} (hm : it.remaining.length ≤ m) (hn : it.remaining.length ≤ n) :
    it.take m = it.take n := by
  induction m generalizing it n with
  | zero =>
      have hnil : it.remaining = [] := List.length_eq_zero_iff.mp (by omega)
      rw [take_nil _ hnil, take_nil _ hnil]
  | succ m ih =>
      by_cases hnil : it.remaining = []
      · rw [take_nil _ hnil, take_nil _ hnil]
      · have hpos := List.length_pos_iff.mpr hnil
        have hnext := next_length hnil
        obtain ⟨k, rfl⟩ := Nat.exists_eq_succ_of_ne_zero (show n ≠ 0 by omega)
        rw [take_cons m hnil, take_cons k hnil, @ih it.next.2 k (by omega) (by omega)]

/-- The tokens of all that was not read yet. -/
def rest (it : XmlStreamIterator) : List JString := it.take it.remaining.length

theorem rest_nil (h : it.remaining = []) : it.rest = [] := take_nil _ h

theorem rest_cons (h : it.remaining ≠ []) : it.rest = it.next.1 :: it.next.2.rest := by
  obtain ⟨m, hm⟩ := Nat.exists_eq_succ_of_ne_zero
    (fun h0 => h (List.length_eq_zero_iff.mp h0))
  have hnext := next_length h
  rw [rest, hm, take_cons m h, take_eq (n := it.next.2.remaining.length) (by omega) (by omega)]
  rfl

theorem rest_ne_nil (h : it.remaining ≠ []) : it.rest ≠ [] := by
  rw [rest_cons h]
  exact List.cons_ne_nil _ _

theorem rest_fillBuffer (it : XmlStreamIterator) : it.fillBuffer.rest = it.rest := by
  have hremaining := fillBuffer_remaining it
  by_cases h : it.remaining = []
  · rw [rest_nil h, rest_nil (hremaining.trans h)]
  · have h' : it.fillBuffer.remaining ≠ [] := fun hnil => h (hremaining.symm.trans hnil)
    rw [rest_cons h, rest_cons h', next_fillBuffer]

theorem rest_token {t r : JString} (h : scan it.fillBuffer.buffer .start = .token t r) :
    it.rest = t :: rest ⟨it.fillBuffer.input, r⟩ := by
  have hne : it.remaining ≠ [] := by
    intro hnil
    have := scan_start_length h
    rw [← fillBuffer_remaining, remaining] at hnil
    rw [(List.append_eq_nil_iff.mp hnil).1] at this
    simp at this
  rw [rest_cons hne, next_of_token h]

theorem rest_ended (hne : it.remaining ≠ []) (h : scan it.fillBuffer.buffer .start = .ended st) :
    it.rest = st.predata :: rest ⟨it.fillBuffer.input, []⟩ := by
  rw [rest_cons hne, next_of_ended h]

end XmlStreamIterator

/-! ## The tokens of a text -/

open XmlStreamIterator

/-- The tokens of a text that is in the buffer as a whole. -/
def textTokens (text : JString) : List JString := rest ⟨[], text⟩

theorem fillBuffer_text (text : JString) :
    XmlStreamIterator.fillBuffer ⟨[], text⟩ = ⟨[], text⟩ := by
  unfold fillBuffer
  split <;> rfl

/-- The whole text is read into the buffer at once. -/
theorem tokens_single (text : JString) : tokens [text] = textTokens text := by
  have hfill : XmlStreamIterator.fillBuffer ⟨[text], []⟩ = ⟨[], text⟩ := rfl
  have htokens : tokens [text] = rest ⟨[text], []⟩ := by simp [tokens, rest, remaining]
  rw [htokens, ← rest_fillBuffer, hfill]
  rfl

theorem textTokens_nil : textTokens [] = [] := rfl

theorem textTokens_ne_nil (hne : text ≠ []) : textTokens text ≠ [] :=
  rest_ne_nil (by simpa [remaining] using hne)

theorem textTokens_token {t r : JString} (h : scan text .start = .token t r) :
    textTokens text = t :: textTokens r := by
  have hbuffer : scan (XmlStreamIterator.fillBuffer ⟨[], text⟩).buffer .start = .token t r := by
    rw [fillBuffer_text]
    exact h
  rw [textTokens, rest_token hbuffer, fillBuffer_text]
  rfl

theorem textTokens_ended (hne : text ≠ []) (h : scan text .start = .ended st) :
    textTokens text = [st.predata] := by
  have hbuffer : scan (XmlStreamIterator.fillBuffer ⟨[], text⟩).buffer .start = .ended st := by
    rw [fillBuffer_text]
    exact h
  rw [textTokens, rest_ended (by simpa [remaining] using hne) hbuffer, fillBuffer_text]
  rfl

theorem textTokens_blanks (hne : u ≠ []) (hu : ∀ c ∈ u, isBlank c) : textTokens u = [[]] := by
  rw [textTokens_ended hne (scan_blanks hu), if_neg hne]
  rfl

/-! ## The first token -/

/-- A token begins as the text does, unless the buffer held blanks only. -/
theorem rest_head {it : XmlStreamIterator} {num : JChar} (hu : ∀ c ∈ u, isBlank c)
    (hb : isBlank num = false) (h : it.remaining = u ++ num :: v) :
    ∃ t ts, it.rest = t :: ts ∧
      ((t = [] ∧ ∀ c ∈ it.fillBuffer.buffer, isBlank c) ∨ t.head? = some num) := by
  have hne : it.remaining ≠ [] := by
    rw [h]
    simp
  rcases blanks_or_token it.fillBuffer.buffer with hall | ⟨u', num', v', hbuffer, hu', hb'⟩
  · refine ⟨_, _, rest_ended hne (scan_blanks hall), Or.inl ⟨?_, hall⟩⟩
    split <;> rfl
  · have hnum : num' = num := by
      rw [← fillBuffer_remaining, remaining, hbuffer, List.append_assoc, List.cons_append] at h
      have := congrArg (List.dropWhile isBlank) h
      rw [dropWhile_blanks hu' hb', dropWhile_blanks hu hb] at this
      exact (List.cons.inj this).1
    subst hnum
    have hfirst : scan it.fillBuffer.buffer .start = scan v' (.first num') := by
      rw [hbuffer, scan_first hu' hb']
    have hpre := scan_collected v' (.first num')
    cases hscan : scan v' (.first num') with
    | token t r =>
        exact ⟨_, _, rest_token (hfirst.trans hscan),
          Or.inr (head_of_collected (hpre.1 t r hscan))⟩
    | ended st =>
        exact ⟨_, _, rest_ended hne (hfirst.trans hscan),
          Or.inr (head_of_collected (hpre.2 st hscan))⟩

theorem textTokens_head {num : JChar} (hu : ∀ c ∈ u, isBlank c) (hb : isBlank num = false) :
    ∃ t ts, textTokens (u ++ num :: v) = t :: ts ∧ t.head? = some num := by
  obtain ⟨t, ts, htokens, ht⟩ :=
    @rest_head u v ⟨[], u ++ num :: v⟩ num hu hb (by simp [remaining])
  refine ⟨t, ts, htokens, ht.resolve_left ?_⟩
  intro hall
  rw [fillBuffer_text] at hall
  have := hall.2 num (by simp)
  rw [hb] at this
  cases this

/-- An empty token is the last one. -/
theorem textTokens_empty {text : JString} {ts : List JString} (h : textTokens text = [] :: ts) :
    ts = [] := by
  rcases blanks_or_token text with hall | ⟨u, num, v, rfl, hu, hb⟩
  · by_cases hnil : text = []
    · subst hnil
      cases h
    · rw [textTokens_blanks hnil hall] at h
      cases h
      rfl
  · obtain ⟨t, ts', htokens, ht⟩ := textTokens_head (v := v) hu hb
    rw [htokens] at h
    cases h
    cases ht

/-- The first token of a text with a tag in it. -/
theorem textTokens_before_tag (hu : jchar '<' ∉ u) (w : JString) :
    ∃ t ts, textTokens (u ++ jchar '<' :: w) = t :: ts ∧
      (solid u = [] → jchar '<' ∈ solid t) ∧
      (solid u ≠ [] → solid t = solid u ∧ ts = textTokens (jchar '<' :: w)) := by
  by_cases hne : solid u = []
  · obtain ⟨t, ts, htokens, ht⟩ := @textTokens_head u w _ (solid_eq_nil.mp hne) blank_lt
    exact ⟨t, ts, htokens, fun _ => mem_solid_of_head blank_lt ht, fun h => absurd hne h⟩
  · obtain ⟨t, hscan, hsolid⟩ := scan_text_tag hu hne w
    exact ⟨t, _, textTokens_token hscan, fun h => absurd h hne, fun _ => ⟨hsolid, rfl⟩⟩

/-- The first token of a text without a tag in it. -/
theorem textTokens_no_tag (hu : jchar '<' ∉ u) {t : JString} {ts : List JString}
    (h : textTokens u = t :: ts) : solid t = solid u ∧ ts = [] := by
  by_cases hne : solid u = []
  · by_cases hnil : u = []
    · subst hnil
      cases h
    · rw [textTokens_blanks hnil (solid_eq_nil.mp hne)] at h
      cases h
      exact ⟨hne.symm, rfl⟩
  · obtain ⟨st, hscan, -, hsolid⟩ := scan_text hu hne
    have hnil : u ≠ [] := by
      rintro rfl
      exact hne rfl
    rw [textTokens_ended hnil hscan] at h
    cases h
    exact ⟨hsolid, rfl⟩

theorem textTokens_blanks_cons {num : JChar} (hu : ∀ c ∈ u, isBlank c)
    (hb : isBlank num = false) : textTokens (u ++ num :: v) = textTokens (num :: v) := by
  have hscan := scan_first (v := v) hu hb
  have hscan' := scan_first (u := []) (v := v) (by simp) hb
  rw [List.nil_append] at hscan'
  cases h : scan v (.first num) with
  | token t r => rw [textTokens_token (hscan.trans h), textTokens_token (hscan'.trans h)]
  | ended st =>
      rw [textTokens_ended (by simp) (hscan.trans h), textTokens_ended (by simp) (hscan'.trans h)]

end Freehal.Xml
