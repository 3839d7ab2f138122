import Freehal.Xml.Lemmas.Image

/-!
# Words that are printed and split again

What `fromText` makes of the text that `printXml` writes for an `XmlText`.
-/

namespace Freehal.Xml

/-! ## Lists of words -/

theorem printWords_of_ne_nil {str : JString} (hstr : str ≠ []) (words : List JString) :
    printWords str words = str ++ words.flatMap (jchar ' ' :: ·) := by
  induction words generalizing str with
  | nil => simp [printWords]
  | cons word words ih =>
      rw [printWords, if_pos (List.length_pos_iff.mpr hstr), ih (by simp [hstr])]
      simp

theorem printWords_cons {word : JString} (hword : word ≠ []) (words : List JString) :
    printWords [] (word :: words) = word ++ words.flatMap (jchar ' ' :: ·) := by
  rw [printWords, if_neg (by simp), List.nil_append, printWords_of_ne_nil hword]

theorem splitFrom_word (separator : Bool) (word : JString) {u : JString} (hne : u ≠ [])
    (hu : u.all isWordChar = true) (text : JString) :
    splitFrom separator word (u ++ text) = splitFrom false (word ++ u) text := by
  induction u generalizing separator word with
  | nil => exact absurd rfl hne
  | cons num u ih =>
      rw [List.all_cons, Bool.and_eq_true] at hu
      rw [List.cons_append, splitFrom, if_pos hu.1]
      by_cases hnil : u = []
      · rw [hnil, List.nil_append]
      · rw [ih false (word ++ [num]) hnil hu.2, List.append_assoc]
        rfl

theorem splitFrom_words_spaced {words : List JString} (hne : [] ∉ words)
    (hwords : ∀ w ∈ words, w.all isWordChar = true) (word : JString) (last : Bool) :
    splitFrom false word (words.flatMap (jchar ' ' :: ·) ++ if last then [jchar ' '] else []) =
      word :: words ++ if last then [[]] else [] := by
  have hspace : ∀ word text, splitFrom false word (jchar ' ' :: text) =
      word :: splitFrom true [] text := fun _ _ => rfl
  induction words generalizing word with
  | nil =>
      cases last with
      | true => rfl
      | false => rfl
  | cons w words ih =>
      have hw : w ≠ [] := fun he => hne (by simp [he])
      rw [List.flatMap_cons, List.append_assoc, List.cons_append, hspace,
        splitFrom_word true [] hw (hwords w (by simp)), List.nil_append,
        ih (fun hmem => hne (by simp [hmem])) (fun v hv => hwords v (by simp [hv]))]
      rfl

theorem splitFrom_all (separator : Bool) (word : JString) {text : JString} (hne : text ≠ [])
    (hall : text.all isWordChar = true) : splitFrom separator word text = [word ++ text] := by
  have := splitFrom_word separator word hne hall []
  rwa [List.append_nil] at this

theorem splitWords_eq {text : JString} (hne : text ≠ []) :
    splitWords text = (splitFrom false [] text).rdropWhile (· = []) := by
  unfold splitWords
  split
  · case isTrue hall =>
      rw [splitFrom_all false [] hne hall, List.nil_append]
      exact (List.rdropWhile_eq_self_iff.mpr fun _ => by simp [hne]).symm
  · rfl

theorem splitWords_spaced {word : JString} {words : List JString} (hne : [] ∉ word :: words)
    (hwords : ∀ w ∈ word :: words, w.all isWordChar = true) (last : Bool) :
    splitWords (word ++ words.flatMap (jchar ' ' :: ·) ++ if last then [jchar ' '] else []) =
      word :: words := by
  have hword : word ≠ [] := fun he => hne (by simp [he])
  have hlast : (word :: words).rdropWhile (· = []) = word :: words := by
    apply List.rdropWhile_eq_self_iff.mpr
    intro hcons hnil
    exact hne ((of_decide_eq_true hnil) ▸ List.getLast_mem hcons)
  rw [splitWords_eq (by simp [hword]), List.append_assoc,
    splitFrom_word false [] hword (hwords word (by simp)), List.nil_append,
    splitFrom_words_spaced (fun hmem => hne (by simp [hmem])) (fun v hv => hwords v (by simp [hv]))]
  cases last with
  | true =>
      have hdrop := List.rdropWhile_concat_pos (fun w : JString => decide (w = [])) (word :: words) []
        (by simp)
      rw [if_pos rfl, hdrop, hlast]
  | false => rw [if_neg (by simp), List.append_nil, hlast]

/-- Only the last piece may be empty, unless the text begins with a separator. -/
theorem splitFrom_pieces (separator : Bool) {word : JString} (h : separator = true ∨ word ≠ [])
    (text : JString) : ∃ ps q, splitFrom separator word text = ps ++ [q] ∧ [] ∉ ps := by
  induction text generalizing separator word with
  | nil => exact ⟨[], word, rfl, by simp⟩
  | cons num text ih =>
      rw [splitFrom]
      split
      · exact ih false (Or.inr (by simp))
      · split
        · exact ih true (Or.inl rfl)
        · case isFalse hseparator =>
            have hword : word ≠ [] := h.resolve_left hseparator
            obtain ⟨ps, q, hpieces, hps⟩ := @ih true [] (Or.inl rfl)
            refine ⟨word :: ps, q, by rw [hpieces]; rfl, ?_⟩
            intro hmem
            rcases List.mem_cons.mp hmem with he | hmem
            · exact hword he.symm
            · exact hps hmem

theorem splitFrom_head (separator : Bool) (word text : JString) :
    ∃ p ps, splitFrom separator word text = p :: ps ∧ word <+: p := by
  induction text generalizing separator word with
  | nil => exact ⟨word, [], rfl, List.prefix_refl _⟩
  | cons num text ih =>
      rw [splitFrom]
      split
      · obtain ⟨p, ps, hpieces, hpre⟩ := ih false (word ++ [num])
        exact ⟨p, ps, hpieces, (List.prefix_append _ _).trans hpre⟩
      · split
        · exact ih true word
        · exact ⟨word, _, rfl, List.prefix_refl _⟩

theorem splitWords_nonempty {num : JChar} (hnum : isWordChar num = true) (text : JString) :
    splitWords (num :: text) ≠ [] ∧ [] ∉ splitWords (num :: text) := by
  have hfirst : splitFrom false [] (num :: text) = splitFrom false [num] text := by
    rw [splitFrom, if_pos hnum]
    rfl
  rw [splitWords_eq (List.cons_ne_nil _ _), hfirst]
  obtain ⟨ps, q, hpieces, hps⟩ := @splitFrom_pieces false [num] (Or.inr (by simp)) text
  rw [hpieces]
  by_cases hq : q = []
  · subst hq
    rw [List.rdropWhile_concat_pos _ _ _ (by simp)]
    have hps' : ps.rdropWhile (· = []) = ps := by
      apply List.rdropWhile_eq_self_iff.mpr
      intro hcons hnil
      exact hps ((of_decide_eq_true hnil) ▸ List.getLast_mem hcons)
    rw [hps']
    refine ⟨?_, hps⟩
    rintro rfl
    obtain ⟨p, ps', hhead, hpre⟩ := splitFrom_head false [num] text
    rw [hpieces] at hhead
    obtain rfl := (List.cons.inj hhead).1
    exact absurd (List.prefix_nil.mp hpre) (List.cons_ne_nil _ _)
  · rw [List.rdropWhile_concat_neg _ _ _ (by simpa using hq)]
    refine ⟨by simp, ?_⟩
    intro hmem
    rcases List.mem_append.mp hmem with hmem | hmem
    · exact hps hmem
    · exact hq (List.mem_singleton.mp hmem).symm

/-! ## What comes of a text -/

theorem Spaced.append {u v : JString} (hu : Spaced u) (hv : Spaced v)
    (h : u.getLast? = some (jchar ' ') → v.head? ≠ some (jchar ' ')) : Spaced (u ++ v) := by
  refine ⟨?_, List.isChain_append.mpr ⟨hu.single, hv.single, ?_⟩⟩
  · intro c hc
    exact (List.mem_append.mp hc).elim (hu.space c) (hv.space c)
  · rintro c hc d hd ⟨rfl, rfl⟩
    exact h hc hd

theorem spaced_word {word : JString} (h : word.all isWordChar = true) : Spaced word := by
  have hblank : ∀ c ∈ word, isBlank c = false :=
    fun c hc => (wordChar_ne (List.all_eq_true.mp h c hc)).1
  refine ⟨?_, ?_⟩
  · intro c hc hb
    rw [hblank c hc] at hb
    cases hb
  · apply List.Pairwise.isChain
    apply List.pairwise_of_forall_mem_list
    rintro c hc d hd ⟨rfl, -⟩
    exact absurd (hblank _ hc) (by decide)

theorem last_of_word {word : JString} (hne : word ≠ []) (h : word.all isWordChar = true) :
    ∃ c, word.getLast? = some c ∧ isBlank c = false :=
  ⟨_, List.getLast?_eq_some_getLast hne,
    (wordChar_ne (List.all_eq_true.mp h _ (List.getLast_mem hne))).1⟩

/-- Words with single spaces between them. -/
theorem spaced_words {words : List JString} (hne : [] ∉ words)
    (hwords : ∀ w ∈ words, w.all isWordChar = true) {u : JString} (hu : Spaced u)
    (hlast : ∃ c, u.getLast? = some c ∧ isBlank c = false) :
    Spaced (u ++ words.flatMap (jchar ' ' :: ·)) ∧
      ∃ c, (u ++ words.flatMap (jchar ' ' :: ·)).getLast? = some c ∧ isBlank c = false := by
  induction words generalizing u with
  | nil =>
      rw [List.flatMap_nil, List.append_nil]
      exact ⟨hu, hlast⟩
  | cons w words ih =>
      have hw : w ≠ [] := fun he => hne (by simp [he])
      have hword := hwords w (by simp)
      obtain ⟨c, hc, hblank⟩ := hlast
      have hcons : Spaced (jchar ' ' :: w) := by
        refine Spaced.append (u := [jchar ' ']) ⟨?_, List.isChain_singleton _⟩
          (spaced_word hword) ?_
        · intro d hd _
          exact List.mem_singleton.mp hd
        · intro _ hhead
          have hmem := List.mem_of_mem_head? hhead
          exact absurd (wordChar_ne (List.all_eq_true.mp hword _ hmem)).1 (by decide)
      have hnext : Spaced (u ++ jchar ' ' :: w) := by
        refine hu.append hcons ?_
        rw [hc]
        intro he
        obtain rfl := Option.some.inj he
        cases hblank
      have hnextLast : ∃ c, (u ++ jchar ' ' :: w).getLast? = some c ∧ isBlank c = false := by
        obtain ⟨d, hd, hdblank⟩ := last_of_word hw hword
        refine ⟨d, ?_, hdblank⟩
        rw [List.getLast?_append, List.getLast?_cons, hd]
        rfl
      have := ih (fun hmem => hne (by simp [hmem])) (fun v hv => hwords v (by simp [hv])) hnext
        hnextLast
      simpa using this

theorem runToken_words {bl bl' word : JString} {words : List JString}
    (hbl : ∀ c ∈ bl, isBlank c) (hbl' : ∀ c ∈ bl', isBlank c) (hne : [] ∉ word :: words)
    (hwords : ∀ w ∈ word :: words, w.all isWordChar = true) :
    runToken (bl ++ printWords [] (word :: words) ++ bl') =
      word ++ words.flatMap (jchar ' ' :: ·) ++ if bl' ≠ [] then [jchar ' '] else [] := by
  have hword : word ≠ [] := fun he => hne (by simp [he])
  have hall := hwords word (by simp)
  have hwordy : Wordy (printWords [] (word :: words)) :=
    wordy_printWords hwords fun _ hc => (by cases hc)
  have hrest : [] ∉ words := fun hmem => hne (List.mem_cons_of_mem _ hmem)
  obtain ⟨hspaced, d, hd, hdblank⟩ := spaced_words hrest
    (fun v hv => hwords v (List.mem_cons_of_mem _ hv)) (spaced_word hall) (last_of_word hword hall)
  rw [printWords_cons hword] at hwordy ⊢
  obtain ⟨c, word, rfl⟩ := List.exists_cons_of_ne_nil hword
  rw [List.all_cons, Bool.and_eq_true] at hall
  rw [List.cons_append] at hwordy hspaced hd ⊢
  generalize word ++ words.flatMap (jchar ' ' :: ·) = inner at hwordy hspaced hd
  obtain ⟨hcblank, hclt, -⟩ := wordChar_ne hall.1
  have hlt : stop false ∉ inner := fun hmem => hwordy.lt (List.mem_cons_of_mem _ hmem)
  have hlast : inner.getLast?.elim false isBlank = false := by
    rw [List.getLast?_cons] at hd
    cases hinner : inner.getLast? with
    | none => rfl
    | some e =>
        rw [hinner] at hd
        obtain rfl := Option.some.inj hd
        exact hdblank
  have hscan : scan (bl ++ c :: inner ++ bl') .start =
      scan bl' ⟨c :: inner, some false, false⟩ := by
    have htag : (Scan.first c).inTagname = some false := by simp [Scan.first, hclt]
    have hinside := scan_spaced (v := bl') hspaced.of_cons htag (by simp [Scan.first]) hlt
      fun _ => rfl
    rw [List.append_assoc, List.cons_append, scan_first hbl hcblank, hinside]
    simp only [Scan.first, hlast]
    rfl
  rw [runToken, hscan, scan_blanks hbl']
  dsimp only
  by_cases hnil : bl' = []
  · simp [hnil]
  · simp [hnil, Scan.blank]

theorem wordy_runToken {run : JString} (h : Wordy run) (hne : solid run ≠ []) :
    Wordy (runToken run) := by
  obtain ⟨-, -, hsolid, -⟩ := runToken_spec h.lt hne
  intro c hc
  cases hb : isBlank c with
  | true => exact Or.inr rfl
  | false =>
      have hmem : c ∈ solid run := hsolid ▸ mem_solid.mpr ⟨hc, hb⟩
      rcases h c (mem_solid.mp hmem).1 with hword | hblank
      · exact Or.inl hword
      · rw [hb] at hblank
        cases hblank

/-- Without a dot only one of the default values is left. -/
theorem readText_wordy {line : JString} (h : Wordy line) :
    readText line = if line = jtext "00000" then [] else [.text (splitWords line)] := by
  have hdot : jchar '.' ∉ line := by
    intro hmem
    rcases h _ hmem with hword | hblank
    · exact (wordChar_ne hword).2.2 rfl
    · cases hblank
  have hpre : ∀ s : JString, jchar '.' ∈ s → ¬ s.isPrefixOf line = true := by
    intro s hs hpre
    exact hdot ((List.isPrefixOf_iff_prefix.mp hpre).subset hs)
  have hnormal : normalValue line = line := by
    rw [normalValue, if_neg (hpre _ (by decide)), if_neg (hpre _ (by decide))]
  have hdefault : isDefault line = decide (line = jtext "00000") := by
    have := hpre (jtext "0.50") (by decide)
    simp [isDefault, this]
  rw [readText, hdefault, hnormal]
  by_cases hline : line = jtext "00000" <;> simp [hline]

theorem flush_blank {run : JString} (h : ∀ c ∈ run, isBlank c) : flush run = [] := by
  rw [flush, if_pos (solid_eq_nil.mpr h)]

/-- A text comes back as it was if it has words, none of them is empty, and it is not the default
value alone between two tags. -/
theorem flush_eq_iff {bl bl' : JString} {words : List JString} (hbl : ∀ c ∈ bl, isBlank c)
    (hbl' : ∀ c ∈ bl', isBlank c) (hwords : ∀ w ∈ words, w.all isWordChar = true) :
    flush (bl ++ printWords [] words ++ bl') = [.text words] ↔
      words ≠ [] ∧ [] ∉ words ∧ (bl' = [] → words ≠ [jtext "00000"]) := by
  have hrun : Wordy (bl ++ printWords [] words ++ bl') :=
    ((Wordy.of_blank hbl).append (wordy_printWords hwords fun _ hc => (by cases hc))).append
      (Wordy.of_blank hbl')
  have hgood : words ≠ [] ∧ [] ∉ words →
      flush (bl ++ printWords [] words ++ bl') =
        if bl' = [] ∧ words = [jtext "00000"] then [] else [.text words] := by
    rintro ⟨hnil, hne⟩
    obtain ⟨word, words, rfl⟩ := List.exists_cons_of_ne_nil hnil
    have hword : word ≠ [] := fun he => hne (by simp [he])
    have htoken := runToken_words hbl hbl' hne hwords
    have hsolid : solid (bl ++ printWords [] (word :: words) ++ bl') ≠ [] := by
      obtain ⟨c, word, rfl⟩ := List.exists_cons_of_ne_nil hword
      have hall := hwords (c :: word) (by simp)
      rw [List.all_cons, Bool.and_eq_true] at hall
      have hmem : c ∈ solid (bl ++ printWords [] ((c :: word) :: words) ++ bl') := by
        rw [printWords_cons hword]
        exact mem_solid.mpr ⟨by simp, (wordChar_ne hall.1).1⟩
      exact List.ne_nil_of_mem hmem
    have hsplit := splitWords_spaced hne hwords (decide (bl' ≠ []))
    simp only [decide_eq_true_eq] at hsplit
    have hzero : runToken (bl ++ printWords [] (word :: words) ++ bl') = jtext "00000" ↔
        bl' = [] ∧ word :: words = [jtext "00000"] := by
      have hspace : jchar ' ' ∉ jtext "00000" := by decide
      rw [htoken]
      refine ⟨?_, ?_⟩
      · intro heq
        rw [← heq] at hspace
        have hbehind : bl' = [] := by
          by_contra hbehind
          exact hspace (by simp [hbehind])
        have hwordsNil : words = [] := by
          by_contra hwordsNil
          obtain ⟨w, ws, rfl⟩ := List.exists_cons_of_ne_nil hwordsNil
          exact hspace (by simp)
        refine ⟨hbehind, ?_⟩
        rw [← heq, hwordsNil, hbehind]
        simp
      · rintro ⟨rfl, heq⟩
        obtain ⟨rfl, rfl⟩ := List.cons.inj heq
        simp
    rw [flush, if_neg hsolid, readText_wordy (wordy_runToken hrun hsolid)]
    simp only [hzero]
    rw [htoken, hsplit]
  constructor
  · intro h
    have hsolid : solid (bl ++ printWords [] words ++ bl') ≠ [] := by
      intro hnil
      rw [flush, if_pos hnil] at h
      cases h
    obtain ⟨-, -, -, c, hc, hcblank⟩ := runToken_spec hrun.lt hsolid
    have htoken := wordy_runToken hrun hsolid
    have hflush := h
    rw [flush, if_neg hsolid, readText_wordy htoken] at h
    split at h
    · cases h
    · obtain ⟨num, text, htext⟩ := List.exists_cons_of_ne_nil (runToken_spec hrun.lt hsolid).1
      have hnum : isWordChar num = true := by
        rw [htext] at hc
        obtain rfl := Option.some.inj hc
        have := htoken num (by rw [htext]; simp)
        rw [hcblank] at this
        simpa using this
      obtain ⟨hnil, hne⟩ := splitWords_nonempty hnum text
      rw [← htext, XmlTree.text.inj (List.cons.inj h).1] at hnil hne
      refine ⟨hnil, hne, ?_⟩
      intro hbl' hzero
      rw [hgood ⟨hnil, hne⟩, if_pos ⟨hbl', hzero⟩] at hflush
      cases hflush
  · rintro ⟨hnil, hne, hzero⟩
    rw [hgood ⟨hnil, hne⟩, if_neg fun h => hzero h.1 h.2]

end Freehal.Xml
