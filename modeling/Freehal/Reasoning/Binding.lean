import Freehal.Lib.Lists
import Freehal.Reasoning.TextMatch

/-!
# What the variables of a text are bound to

A variable of a premise takes all words of the fact from the position where the search is, up to
the end: the object behind it in the premise is no object of the fact. So putting the words back
for the variables gives the text of the fact only where there is nothing behind the last one.
-/

namespace Freehal.Reasoning

open Freehal.Xml (JString jtext)
open Freehal.Lib

/-- An object of one word: what `fromText` builds, or the list of synonyms that takes its place. -/
def XmlObj.isSingle : XmlObj → Bool
  | .list .xmlSynonyms _ [.word _] => true
  | .list _ _ _ => false
  | _ => true

theorem wordMatches_single {r : XmlObj} (hr : r.isSingle) (text : JString) :
    wordMatches text r = true ↔ r.printText = text := by
  unfold XmlObj.isSingle at hr
  split at hr
  · simp [wordMatches, anyWordMatches, XmlObj.printText, printTexts, eq_comm]
  · cases hr
  · cases r with
    | list cls name embedded => simp_all
    | word text => simp [wordMatches, XmlObj.printText, eq_comm]
    | var text after => simp [wordMatches, XmlObj.printText, eq_comm]

/-! ## Bindings -/

/-- The objects of a text with what its variables are bound to. -/
def substitute (variablemap : VariableMap) (emb1 : List XmlObj) : List XmlObj :=
  emb1.flatMap fun
    | .var text after => (variablemap.get text).getD [.var text after]
    | o => [o]

/-- The map after the objects of a premise were found at positions of the fact. -/
def bindAll (emb2 : List XmlObj) : List XmlObj → List Nat → VariableMap → VariableMap
  | .var text _ :: emb1, k :: ks, variablemap =>
      bindAll emb2 emb1 ks (variablemap.put text (emb2.drop k))
  | _ :: emb1, _ :: ks, variablemap => bindAll emb2 emb1 ks variablemap
  | _, _, variablemap => variablemap

/-- A variable fits any word. -/
def Fits (l : XmlObj) (word : JString) : Prop := l.isVariable = true ∨ l.printText = word

variable {emb1 emb2 : List XmlObj} {k : Nat}

theorem foundAt_iff (hfact : ∀ r ∈ emb2, r.isSingle) {l : XmlObj} (hl : l.isWord)
    (hv : l.isVariable = false) (m : Nat) :
    foundAt l emb2 (m % emb2.length) = true ↔
      ∃ w, (emb2.map XmlObj.printText)[m % (emb2.map XmlObj.printText).length]? = some w ∧
        Fits l w := by
  rw [List.length_map, List.getElem?_map, foundAt]
  cases hr : emb2[m % emb2.length]? with
  | none => simp
  | some r =>
      cases l with
      | list cls name embedded => cases hl
      | var text after => cases hv
      | word text =>
          have hsingle := wordMatches_single (hfact r (List.mem_of_getElem? hr)) text
          simp [XmlObj.finds, XmlObj.matches, Fits, XmlObj.isVariable, XmlObj.printText, hsingle,
            eq_comm]

/-- A match is a scan of the words of the fact, and the map is filled with its positions. -/
theorem exists_scan_of_matches (hpremise : ∀ l ∈ emb1, l.isWord) (hfact : ∀ r ∈ emb2, r.isSingle)
    (hk : k < emb2.length) {variablemap bound : VariableMap}
    (h : matchesTexts emb1 emb2 k variablemap = some (true, bound)) :
    ∃ ks k', CyclicScan Fits (emb2.map XmlObj.printText) emb1 k ks k' ∧
      bound = bindAll emb2 emb1 ks variablemap := by
  induction emb1 generalizing k variablemap with
  | nil =>
      cases h
      exact ⟨[], k, .nil, by simp [bindAll]⟩
  | cons l emb1 ih =>
      have hpos : 0 < emb2.length := by omega
      have ih := fun k => @ih k (fun o ho => hpremise o (List.mem_cons_of_mem _ ho))
      have hword := hpremise l List.mem_cons_self
      cases l with
      | list cls name embedded => cases hword
      | var text after =>
          rw [matchesTexts_var text after hk] at h
          obtain ⟨ks, k', hscan, hbound⟩ := ih _ (Nat.mod_lt _ hpos) h
          have hfirst : FirstFrom (fun m => ∃ w, (emb2.map XmlObj.printText)[m %
              (emb2.map XmlObj.printText).length]? = some w ∧ Fits (.var text after) w) k k := by
            refine ⟨Nat.le_refl k, ?_, fun m hm _ => hm⟩
            refine ⟨_, List.getElem?_eq_getElem ?_, Or.inl rfl⟩
            exact Nat.mod_lt _ (by simpa using hpos)
          refine ⟨_, k', .cons hfirst (by simpa using hscan), ?_⟩
          rw [hbound, bindAll, List.length_map, Nat.mod_eq_of_lt hk]
      | word text =>
          rcases matchesTexts_object (l := .word text) rfl rfl hk variablemap with
            ⟨i, hfirst, hmatches⟩ | ⟨-, hmatches⟩
          · rw [hmatches] at h
            obtain ⟨ks, k', hscan, hbound⟩ := ih _ (Nat.mod_lt _ hpos) h
            refine ⟨_, k', .cons (hfirst.congr (foundAt_iff hfact rfl rfl)) (by simpa using hscan), ?_⟩
            simp [hbound, bindAll]
          · rw [hmatches] at h
            cases h

theorem bindAll_append {emb1' : List XmlObj} {ks ks' : List Nat} (h : ks.length = emb1.length)
    (variablemap : VariableMap) :
    bindAll emb2 (emb1 ++ emb1') (ks ++ ks') variablemap =
      bindAll emb2 emb1' ks' (bindAll emb2 emb1 ks variablemap) := by
  induction emb1 generalizing ks variablemap with
  | nil =>
      obtain rfl := List.length_eq_zero_iff.mp h
      simp [bindAll]
  | cons l emb1 ih =>
      obtain ⟨k, ks, rfl⟩ := List.exists_cons_of_length_eq_add_one h
      have hlen : ks.length = emb1.length := by simpa using h
      cases l <;> simp [bindAll, ih hlen]

/-- Only its own objects bind a variable. -/
theorem bindAll_get_of_notMem {text : JString} {ks : List Nat}
    (h : ∀ after, XmlObj.var text after ∉ emb1) (variablemap : VariableMap) :
    (bindAll emb2 emb1 ks variablemap).get text = variablemap.get text := by
  induction emb1 generalizing ks variablemap with
  | nil => simp [bindAll]
  | cons l emb1 ih =>
      have hrest : ∀ after, XmlObj.var text after ∉ emb1 :=
        fun after hmem => h after (List.mem_cons_of_mem _ hmem)
      cases ks with
      | nil => simp [bindAll]
      | cons k ks =>
          cases l with
          | word t => simp [bindAll, ih hrest]
          | list cls name embedded => simp [bindAll, ih hrest]
          | var t after =>
              have hne : text ≠ t := by
                rintro rfl
                exact h after List.mem_cons_self
              rw [bindAll, ih hrest, HashMap.get_put, if_neg hne]

/-- A variable is bound to what was left of the fact where it stood last. -/
theorem exists_bound {text : JString} {after : List Nat} {ks : List Nat} {k' : Nat}
    (hmem : XmlObj.var text after ∈ emb1)
    (h : CyclicScan Fits (emb2.map XmlObj.printText) emb1 k ks k') (hk : k < emb2.length)
    (variablemap : VariableMap) :
    ∃ l₁ after' l₂ ks₁ m, emb1 = l₁ ++ .var text after' :: l₂ ∧
      CyclicScan Fits (emb2.map XmlObj.printText) l₁ k ks₁ m ∧ m < emb2.length ∧
      (bindAll emb2 emb1 ks variablemap).get text = some (emb2.drop m) := by
  induction emb1 generalizing after k ks variablemap with
  | nil => cases hmem
  | cons l emb1 ih =>
      cases h with
      | @cons _ _ _ i _ ks hfirst h =>
          have hmod : (i + 1) % (emb2.map XmlObj.printText).length < emb2.length := by
            rw [List.length_map]
            exact Nat.mod_lt _ (by omega)
          by_cases hlater : ∃ after', XmlObj.var text after' ∈ emb1
          · obtain ⟨after', hlater⟩ := hlater
            obtain ⟨variablemap', hcons⟩ : ∃ variablemap', bindAll emb2 (l :: emb1)
                (i % (emb2.map XmlObj.printText).length :: ks) variablemap =
                  bindAll emb2 emb1 ks variablemap' := by
              cases l <;> exact ⟨_, rfl⟩
            obtain ⟨l₁, after'', l₂, ks₁, m, hsplit, hscan, hm, hget⟩ :=
              ih hlater h hmod variablemap'
            exact ⟨l :: l₁, after'', l₂, _, m, by rw [hsplit]; rfl, .cons hfirst hscan, hm,
              hcons ▸ hget⟩
          · obtain rfl : XmlObj.var text after = l :=
              (List.mem_cons.mp hmem).resolve_right fun hmem => hlater ⟨after, hmem⟩
            have hnot : ∀ after', XmlObj.var text after' ∉ emb1 :=
              fun after' hmem => hlater ⟨after', hmem⟩
            obtain rfl : i = k := by
              refine Nat.le_antisymm (hfirst.least k (Nat.le_refl k) ?_) hfirst.le
              refine ⟨_, List.getElem?_eq_getElem ?_, Or.inl rfl⟩
              exact Nat.mod_lt _ (by rw [List.length_map]; omega)
            refine ⟨[], after, emb1, [], i, rfl, .nil, hk, ?_⟩
            rw [bindAll, bindAll_get_of_notMem hnot, HashMap.get_put, if_pos rfl, List.length_map,
              Nat.mod_eq_of_lt hk]

/-! ## Putting the words back -/

/-- The words of a text with some words for every variable. -/
def spread (words : List JString) (emb1 : List XmlObj) : List JString :=
  emb1.flatMap fun l => if l.isVariable then words else [l.printText]

theorem substitute_append (variablemap : VariableMap) (emb1 emb1' : List XmlObj) :
    substitute variablemap (emb1 ++ emb1') =
      substitute variablemap emb1 ++ substitute variablemap emb1' := List.flatMap_append

theorem substitute_var (variablemap : VariableMap) (text : JString) (after : List Nat)
    (emb1 : List XmlObj) : substitute variablemap (.var text after :: emb1) =
      (variablemap.get text).getD [.var text after] ++ substitute variablemap emb1 :=
  List.flatMap_cons

theorem substitute_of_noVariable {emb1 : List XmlObj} (h : ∀ l ∈ emb1, l.isVariable = false)
    (variablemap : VariableMap) : substitute variablemap emb1 = emb1 := by
  induction emb1 with
  | nil => rfl
  | cons l emb1 ih =>
      have hl := h l List.mem_cons_self
      have hrest := ih fun o ho => h o (List.mem_cons_of_mem _ ho)
      rw [substitute] at hrest ⊢
      rw [List.flatMap_cons, hrest]
      cases l with
      | var text after => cases hl
      | word text => rfl
      | list cls name embedded => rfl

/-- All variables are bound to the same words. -/
theorem substitute_eq_spread {variablemap : VariableMap} {bound : List XmlObj} {emb1 : List XmlObj}
    (h : ∀ text after, .var text after ∈ emb1 → variablemap.get text = some bound) :
    (substitute variablemap emb1).map XmlObj.printText =
      spread (bound.map XmlObj.printText) emb1 := by
  induction emb1 with
  | nil => rfl
  | cons l emb1 ih =>
      have hrest := ih fun text after hmem => h text after (List.mem_cons_of_mem _ hmem)
      rw [substitute, spread] at hrest ⊢
      rw [List.flatMap_cons, List.flatMap_cons, List.map_append, hrest]
      cases l with
      | word text => rfl
      | list cls name embedded => rfl
      | var text after => simp [h text after List.mem_cons_self, XmlObj.isVariable]

/-- What is put back for the objects fits them, as a variable is bound to a word at least. -/
theorem fits_substitute {variablemap : VariableMap} {emb1 : List XmlObj}
    (h : ∀ text after, .var text after ∈ emb1 →
      ∃ e bound, variablemap.get text = some (e :: bound)) :
    List.SublistForall₂ Fits emb1 ((substitute variablemap emb1).map XmlObj.printText) := by
  induction emb1 with
  | nil => exact .nil
  | cons l emb1 ih =>
      have hrest := ih fun text after hmem => h text after (List.mem_cons_of_mem _ hmem)
      rw [substitute] at hrest ⊢
      rw [List.flatMap_cons, List.map_append]
      cases l with
      | word text => exact .cons (Or.inr rfl) hrest
      | list cls name embedded => exact .cons (Or.inr rfl) hrest
      | var text after =>
          obtain ⟨e, bound, hget⟩ := h text after List.mem_cons_self
          simp only [hget, Option.getD_some, List.map_cons, List.cons_append]
          exact .cons (Or.inl rfl) (sublistForall₂_mono hrest (List.sublist_append_right _ _))

theorem fits_spread {words : List JString} (hne : words ≠ []) (emb1 : List XmlObj) :
    List.SublistForall₂ Fits emb1 (spread words emb1) := by
  obtain ⟨w, words, rfl⟩ := List.exists_cons_of_ne_nil hne
  induction emb1 with
  | nil => exact .nil
  | cons l emb1 ih =>
      rw [spread] at ih ⊢
      rw [List.flatMap_cons]
      by_cases hl : l.isVariable = true
      · rw [if_pos hl, List.cons_append]
        exact .cons (Or.inl hl) (sublistForall₂_mono ih (List.sublist_append_right _ _))
      · rw [if_neg hl]
        exact .cons (Or.inr rfl) ih

/-! ## Where a binding is sound -/

/-- The only variable is the last object, the words behind what is found for the others stand for
it everywhere, and the others are not found in fewer words. -/
def EndsInVariable (emb1 : List XmlObj) (words : List JString) : Prop :=
  ∃ front text after rest, emb1 = front ++ [.var text after] ∧
    (∀ text' after', .var text' after' ∈ front → text' = text) ∧ rest ≠ [] ∧
    words = spread rest front ++ rest ∧
    ∀ m < (spread rest front).length, ¬ List.SublistForall₂ Fits front (words.take m)

/-- The text of the fact is empty or has not all words of the premise, or the premise is the same
text, or it has one variable at its end. -/
def BindsExactly (emb1 emb2 : List XmlObj) : Prop :=
  emb2 = [] ∨
    (∃ l ∈ emb1, l.isVariable = false ∧ l.printText ∉ emb2.map XmlObj.printText) ∨
    ((∀ l ∈ emb1, l.isVariable = false) ∧
      emb1.map XmlObj.printText = emb2.map XmlObj.printText) ∨
    EndsInVariable emb1 (emb2.map XmlObj.printText)

variable {variablemap bound : VariableMap}

/-- The scan of a premise with a last variable: where it stands, and what the map holds. -/
theorem scan_last {front back : List XmlObj} {text : JString} {after : List Nat}
    (hpremise : ∀ l ∈ front ++ .var text after :: back, l.isWord) (hfact : ∀ r ∈ emb2, r.isSingle)
    (hne : emb2 ≠ []) (hback : ∀ l ∈ back, l.isVariable = false)
    (h : matchesTexts (front ++ .var text after :: back) emb2 0 variablemap = some (true, bound)) :
    ∃ ks m, CyclicScan Fits (emb2.map XmlObj.printText) front 0 ks m ∧ m < emb2.length ∧
      bound.get text = some (emb2.drop m) ∧
      ∀ text', text' ≠ text → bound.get text' = (bindAll emb2 front ks variablemap).get text' := by
  obtain ⟨ks, k', hscan, rfl⟩ :=
    exists_scan_of_matches hpremise hfact (List.length_pos_iff.mpr hne) h
  obtain ⟨ks₁, ks₂, m, rfl, hfront, hrest⟩ := hscan.split
  have hm : m < emb2.length := by
    simpa using hfront.lt (by simpa using List.length_pos_iff.mpr hne)
  have hnot : ∀ text' after', XmlObj.var text' after' ∉ back := by
    intro text' after' hmem
    cases hback _ hmem
  cases hrest with
  | @cons _ _ _ i _ ks₂ hfirst hrest =>
      obtain rfl : i = m := by
        refine Nat.le_antisymm (hfirst.least m (Nat.le_refl m) ?_) hfirst.le
        refine ⟨_, List.getElem?_eq_getElem ?_, Or.inl rfl⟩
        exact Nat.mod_lt _ (by rw [List.length_map]; omega)
      refine ⟨ks₁, i, hfront, hm, ?_, ?_⟩
      · rw [bindAll_append hfront.length, bindAll, bindAll_get_of_notMem (hnot text),
          HashMap.get_put, if_pos rfl, List.length_map, Nat.mod_eq_of_lt hm]
      · intro text' hne
        rw [bindAll_append hfront.length, bindAll, bindAll_get_of_notMem (hnot text'),
          HashMap.get_put, if_neg hne]

/-- A sound binding has nothing behind the last variable and no other one before it. -/
theorem endsInVariable_of_sound {front back : List XmlObj} {text : JString} {after : List Nat}
    (hpremise : ∀ l ∈ front ++ .var text after :: back, l.isWord) (hfact : ∀ r ∈ emb2, r.isSingle)
    (hne : emb2 ≠ []) (hback : ∀ l ∈ back, l.isVariable = false)
    (h : matchesTexts (front ++ .var text after :: back) emb2 0 variablemap = some (true, bound))
    (hsound : (substitute bound (front ++ .var text after :: back)).map XmlObj.printText =
      emb2.map XmlObj.printText) :
    EndsInVariable (front ++ .var text after :: back) (emb2.map XmlObj.printText) := by
  obtain ⟨ks, m, hscan, hm, hget, hother⟩ := scan_last hpremise hfact hne hback h
  obtain ⟨words, hwords⟩ : ∃ words, emb2.map XmlObj.printText = words := ⟨_, rfl⟩
  have hlen : words.length = emb2.length := by rw [← hwords, List.length_map]
  rw [hwords] at hscan hsound ⊢
  have hpos : 0 < words.length := by omega
  have hsplit : (substitute bound front).map XmlObj.printText ++ (words.drop m ++
      back.map XmlObj.printText) = words := by
    rw [substitute_append, substitute_var, hget, Option.getD_some, substitute_of_noVariable hback,
      List.map_append, List.map_append, List.map_drop, hwords] at hsound
    exact hsound
  have hother : ∀ text' after', text' ≠ text → .var text' after' ∈ front →
      ∃ l₁ l₂ a ks₁ j, front = l₁ ++ .var text' a :: l₂ ∧ CyclicScan Fits words l₁ 0 ks₁ j ∧
        j < emb2.length ∧ bound.get text' = some (emb2.drop j) := by
    intro text' after' hne hmem
    obtain ⟨l₁, a, l₂, ks₁, j, hfront, hj, hlt, hgetj⟩ :=
      exists_bound hmem (hwords ▸ hscan) (by omega) variablemap
    exact ⟨l₁, l₂, a, ks₁, j, hfront, hwords ▸ hj, hlt, (hother _ hne).trans hgetj⟩
  -- so every variable is bound to a word at least
  have hbound : ∀ text' after', .var text' after' ∈ front →
      ∃ e rest, bound.get text' = some (e :: rest) := by
    intro text' after' hmem
    by_cases heq : text' = text
    · exact ⟨_, _, by rw [heq, hget, List.drop_eq_getElem_cons hm]⟩
    · obtain ⟨l₁, l₂, a, ks₁, j, -, -, hlt, hgetj⟩ := hother text' after' heq hmem
      exact ⟨_, _, by rw [hgetj, List.drop_eq_getElem_cons hlt]⟩
  have hahead := hscan.ahead (x := []) (fits_substitute hbound) hsplit.symm (Nat.zero_le _)
  have hcount := congrArg List.length hsplit
  simp only [List.length_append, List.length_drop, List.length_nil] at hcount hahead
  obtain rfl : back = [] := by
    rw [← List.length_eq_zero_iff, ← List.length_map XmlObj.printText]
    omega
  have honly : ∀ text' after', .var text' after' ∈ front → text' = text := by
    intro text' after' hmem
    by_contra hne
    obtain ⟨l₁, l₂, a, ks₁, j, rfl, hj, hlt, hgetj⟩ := hother text' after' hne hmem
    have hfirst : substitute bound (l₁ ++ .var text' a :: l₂) =
        substitute bound l₁ ++ (emb2.drop j ++ substitute bound l₂) := by
      rw [substitute_append, substitute_var, hgetj, Option.getD_some]
    have hfits := @fits_substitute bound l₁
      fun text after hmem => hbound text after (List.mem_append_left _ hmem)
    rw [hfirst, List.map_append, List.append_assoc] at hsplit
    have hle := hj.ahead (x := []) hfits hsplit.symm (Nat.zero_le _)
    rw [hfirst] at hcount
    simp only [List.map_append, List.length_append, List.length_map, List.length_drop,
      List.length_nil] at hcount hle
    omega
  have hspread : (substitute bound front).map XmlObj.printText = spread (words.drop m) front := by
    rw [← hwords, ← List.map_drop]
    exact substitute_eq_spread fun text' after' hmem => honly text' after' hmem ▸ hget
  have hm' : (spread (words.drop m) front).length = m := by
    rw [← hspread]
    omega
  refine ⟨front, text, after, words.drop m, rfl, honly, ?_, ?_, ?_⟩
  · exact List.ne_nil_of_length_pos (by rw [List.length_drop]; omega)
  · rw [← hspread]
    simpa using hsplit.symm
  · intro m' hlt hfits
    have hle := hscan.ahead (x := []) hfits (List.take_append_drop m' words).symm (Nat.zero_le _)
    rw [List.length_take, List.length_nil] at hle
    omega

/-- In such a text the variable is bound to what is behind the words found before. -/
theorem sound_of_endsInVariable (hpremise : ∀ l ∈ emb1, l.isWord)
    (hfact : ∀ r ∈ emb2, r.isSingle) (hne : emb2 ≠ [])
    (hends : EndsInVariable emb1 (emb2.map XmlObj.printText))
    (h : matchesTexts emb1 emb2 0 variablemap = some (true, bound)) :
    (substitute bound emb1).map XmlObj.printText = emb2.map XmlObj.printText := by
  obtain ⟨front, text, after, rest, rfl, honly, hrest, hwords, hleast⟩ := hends
  obtain ⟨ks, m, hscan, hm, hget, -⟩ := scan_last hpremise hfact hne (fun l hl => by cases hl) h
  have hfits := fits_spread hrest front
  have hsplit : emb2.map XmlObj.printText = [] ++ spread rest front ++ rest := hwords
  have hle := hscan.ahead hfits hsplit (Nat.zero_le _)
  have hfound := (hscan.fits hfits hsplit hrest (Nat.zero_le _)).2
  have hm : m = (spread rest front).length := by
    refine Nat.le_antisymm (by simpa using hle) (Nat.le_of_not_lt fun hlt => hleast m hlt ?_)
    simpa using hfound
  have hdrop : (emb2.drop m).map XmlObj.printText = rest := by
    rw [List.map_drop, hwords, hm, List.drop_left]
  have hall : ∀ text' after', .var text' after' ∈ front → bound.get text' = some (emb2.drop m) :=
    fun text' after' hmem => honly text' after' hmem ▸ hget
  rw [substitute_append, substitute_var, hget, Option.getD_some, List.map_append, List.map_append,
    substitute_eq_spread hall, hdrop, hwords]
  simp [substitute]

/-- Putting back the words that the variables of a premise are bound to gives the text of the fact
if and only if the two are as `BindsExactly` says. -/
theorem binding_sound_iff {name1 name2 : JString} (hpremise : ∀ l ∈ emb1, l.isWord)
    (hfact : ∀ r ∈ emb2, r.isSingle) (variablemap : VariableMap) :
    (∀ bound, (XmlObj.list .xmlText name1 emb1).matches (.list .xmlText name2 emb2) variablemap =
        some (true, bound) →
      (substitute bound emb1).map XmlObj.printText = emb2.map XmlObj.printText) ↔
      BindsExactly emb1 emb2 := by
  rw [matches_texts]
  have hobjects : ∀ l ∈ emb1, l.isTextObject := by
    intro l hl
    have := hpremise l hl
    cases l with
    | list cls name embedded => cases this
    | word text => rfl
    | var text after => rfl
  have hfinds : ∀ l ∈ emb1, l.isVariable = false →
      ((∃ r ∈ emb2, l.finds r = true) ↔ l.printText ∈ emb2.map XmlObj.printText) := by
    intro l hl hv
    have hword := hpremise l hl
    cases l with
    | list cls name embedded => cases hword
    | var text after => cases hv
    | word text =>
        rw [List.mem_map]
        refine exists_congr fun r => and_congr_right fun hr => ?_
        simpa [XmlObj.finds, XmlObj.matches, XmlObj.printText] using
          wordMatches_single (hfact r hr) text
  constructor
  · intro hsound
    by_cases hne : emb2 = []
    · exact Or.inl hne
    by_cases hmissing : ∃ l ∈ emb1, l.isVariable = false ∧ l.printText ∉ emb2.map XmlObj.printText
    · exact Or.inr (Or.inl hmissing)
    obtain ⟨found, bound, hmatches, hfound⟩ :=
      matchesTexts_iff hobjects (List.length_pos_iff.mpr hne) variablemap
    obtain rfl : found = true := by
      refine hfound.mpr fun l hl hv => (hfinds l hl hv).mpr ?_
      by_contra hnot
      exact hmissing ⟨l, hl, hv, hnot⟩
    have hsound := hsound bound hmatches
    by_cases hvar : ∃ l ∈ emb1, l.isVariable = true
    · obtain ⟨front, l, back, rfl, hl, hback⟩ := exists_last hvar
      cases l with
      | word text => cases hl
      | list cls name embedded => cases hl
      | var text after =>
          exact Or.inr (Or.inr (Or.inr
            (endsInVariable_of_sound hpremise hfact hne hback hmatches hsound)))
    · have hnone : ∀ l ∈ emb1, l.isVariable = false := by simpa using hvar
      rw [substitute_of_noVariable hnone] at hsound
      exact Or.inr (Or.inr (Or.inl ⟨hnone, hsound⟩))
  · intro hexact bound hmatches
    by_cases hne : emb2 = []
    · subst hne
      cases emb1 with
      | nil => rfl
      | cons l emb1 => simp [matchesTexts, cyclicSearch, wrap] at hmatches
    rcases hexact with hnil | ⟨l, hl, hv, hmissing⟩ | ⟨hnone, hsame⟩ | hends
    · exact absurd hnil hne
    · obtain ⟨found, bound', hmatches', hfound⟩ :=
        matchesTexts_iff hobjects (List.length_pos_iff.mpr hne) variablemap
      rw [hmatches] at hmatches'
      obtain rfl := (Prod.mk.inj (Option.some.inj hmatches')).1
      exact absurd ((hfinds l hl hv).mp (hfound.mp rfl l hl hv)) hmissing
    · rwa [substitute_of_noVariable hnone]
    · exact sound_of_endsInVariable hpremise hfact hne hends hmatches

/-- A premise that ends in its variable. -/
theorem binding_sound_last :
    (∀ bound, (fromText (jtext "peter is $A$")).matches (fromText (jtext "peter is here now")) [] =
        some (true, bound) →
      (substitute bound (fromText (jtext "peter is $A$")).getEmbedded).map XmlObj.printText =
        (fromText (jtext "peter is here now")).getEmbedded.map XmlObj.printText) ↔
      BindsExactly (fromText (jtext "peter is $A$")).getEmbedded
        (fromText (jtext "peter is here now")).getEmbedded :=
  binding_sound_iff (by decide) (by decide) []

/-- The variable takes the word behind it, too, which is found all the same. -/
theorem binding_takes_all : ¬ ∀ emb1 emb2 : List XmlObj, (∀ l ∈ emb1, l.isWord) →
    (∀ r ∈ emb2, r.isSingle) → ∀ variablemap bound,
      (XmlObj.list .xmlText (jtext "text") emb1).matches (.list .xmlText (jtext "text") emb2)
          variablemap = some (true, bound) →
        (substitute bound emb1).map XmlObj.printText = emb2.map XmlObj.printText := by
  intro hall
  have hrun : ((fromText (jtext "$A$ is")).matches (fromText (jtext "peter is")) []).any
      fun m => m.1 && decide ((substitute m.2 (fromText (jtext "$A$ is")).getEmbedded).map
        XmlObj.printText ≠ (fromText (jtext "peter is")).getEmbedded.map XmlObj.printText) := by
    decide +kernel
  simp only [Option.any_eq_true, Bool.and_eq_true, decide_eq_true_eq] at hrun
  obtain ⟨⟨found, bound⟩, hmatches, rfl, hwords⟩ := hrun
  exact hwords (hall _ _ (by decide) (by decide) [] bound hmatches)

end Freehal.Reasoning
