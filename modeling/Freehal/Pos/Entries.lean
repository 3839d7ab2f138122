import Freehal.Pos.CachedReader
import Freehal.Pos.RoundTrip

/-!
# The entries of a file

An entry is read from one line, whatever stands before and after it.
-/

namespace Freehal.Pos

/-! ## Parts of a line -/

/-- Whether a separator behind `part` has a backslash in front of it. -/
def escapedAfter (escaped : Bool) (part : Str) : Bool :=
  match part.getLast? with
  | none => escaped
  | some c => decide (c = '\\')

theorem escapedAfter_cons (escaped : Bool) (c : Char) (part : Str) :
    escapedAfter escaped (c :: part) = escapedAfter (decide (c = '\\')) part := by
  cases part with
  | nil => rfl
  | cons d part =>
      have hlast := List.getLast?_eq_getLast_of_ne_nil (List.cons_ne_nil d part)
      simp only [escapedAfter, List.getLast?_cons_cons, hlast]

theorem partsFrom_ne_nil (splitBy : Char) (escaped : Bool) (text : Str) :
    partsFrom splitBy escaped text ≠ [] := by
  intro h
  have := flatMap_partsFrom splitBy escaped text
  rw [h] at this
  simp at this

/-- The first part has no separator in it, and it is the whole text or a separator follows it. -/
theorem partsFrom_eq_cons {splitBy : Char} {escaped : Bool} {text part : Str} {parts : List Str}
    (h : partsFrom splitBy escaped text = part :: parts) :
    partsFrom splitBy escaped part = [part] ∧ (parts = [] ∧ text = part ∨
      ∃ rest, parts = partsFrom splitBy false rest ∧ text = part ++ splitBy :: rest ∧
        escapedAfter escaped part = false) := by
  induction text generalizing escaped part with
  | nil =>
      cases h
      exact ⟨rfl, Or.inl ⟨rfl, rfl⟩⟩
  | cons c text ih =>
      rw [partsFrom] at h
      split at h
      · rename_i hc
        simp only [Bool.and_eq_true, decide_eq_true_eq, Bool.not_eq_true'] at hc
        cases h
        exact ⟨rfl, Or.inr ⟨text, rfl, by rw [hc.1]; rfl, hc.2⟩⟩
      · rename_i hc
        cases hp : partsFrom splitBy (decide (c = '\\')) text with
        | nil => exact absurd hp (partsFrom_ne_nil _ _ _)
        | cons first rest =>
            rw [hp] at h
            cases h
            obtain ⟨hfirst, hrest⟩ := ih hp
            refine ⟨?_, ?_⟩
            · rw [partsFrom, if_neg hc, hfirst]
            · rcases hrest with ⟨h1, h2⟩ | ⟨rest', h1, h2, h3⟩
              · exact Or.inl ⟨h1, by rw [h2]⟩
              · refine Or.inr ⟨rest', h1, by rw [h2]; rfl, ?_⟩
                rw [escapedAfter_cons]
                exact h3

/-- A text that begins with a part without separators. -/
theorem partsFrom_append {splitBy : Char} {escaped : Bool} {part rest first : Str}
    {parts : List Str} (hpart : partsFrom splitBy escaped part = [part])
    (hrest : partsFrom splitBy (escapedAfter escaped part) rest = first :: parts) :
    partsFrom splitBy escaped (part ++ rest) = (part ++ first) :: parts := by
  induction part generalizing escaped with
  | nil => exact hrest
  | cons c part ih =>
      rw [partsFrom] at hpart
      split at hpart
      · cases hpart
      · rename_i hc
        rw [escapedAfter_cons] at hrest
        have hinner : partsFrom splitBy (decide (c = '\\')) part = [part] := by
          cases hp : partsFrom splitBy (decide (c = '\\')) part with
          | nil => exact absurd hp (partsFrom_ne_nil _ _ _)
          | cons p ps =>
              rw [hp] at hpart
              cases hpart
              rfl
        rw [List.cons_append, partsFrom, if_neg hc, ih hinner hrest]
        rfl

theorem partsFrom_append_sep {splitBy : Char} {part rest : Str}
    (hpart : partsFrom splitBy false part = [part]) (hafter : escapedAfter false part = false) :
    partsFrom splitBy false (part ++ splitBy :: rest) = part :: partsFrom splitBy false rest := by
  have hrest : partsFrom splitBy (escapedAfter false part) (splitBy :: rest) =
      [] :: partsFrom splitBy false rest := by
    rw [hafter, partsFrom]
    simp
  simpa using partsFrom_append hpart hrest

theorem mem_of_mem_partsFrom {splitBy : Char} {escaped : Bool} {text part : Str} {c : Char}
    (hpart : part ∈ partsFrom splitBy escaped text) (hc : c ∈ part) : c ∈ text := by
  induction text generalizing escaped part with
  | nil =>
      rw [partsFrom, List.mem_singleton] at hpart
      exact hpart ▸ hc
  | cons d text ih =>
      rw [partsFrom] at hpart
      split at hpart
      · rcases List.mem_cons.mp hpart with rfl | hpart
        · cases hc
        · exact List.mem_cons_of_mem _ (ih hpart hc)
      · cases hp : partsFrom splitBy (decide (d = '\\')) text with
        | nil => exact absurd hp (partsFrom_ne_nil _ _ _)
        | cons first rest =>
            rw [hp] at hpart
            rcases List.mem_cons.mp hpart with rfl | hpart
            · rcases List.mem_cons.mp hc with rfl | hc
              · exact List.mem_cons_self
              · exact List.mem_cons_of_mem _ (ih (hp ▸ List.mem_cons_self) hc)
            · exact List.mem_cons_of_mem _ (ih (hp ▸ List.mem_cons_of_mem _ hpart) hc)

theorem splitEscaped_isPrefix (text : Str) (splitBy : Char) :
    splitEscaped text splitBy <+: partsFrom splitBy false text := by
  unfold splitEscaped
  split
  · rename_i part hp
    rw [hp]
  · exact List.rdropWhile_prefix _ _

/-! ## Entries of a file -/

/-- The first part of an entry stands in front of a separator. -/
theorem entryOf_isPrefix {line word : Str} {tags : Tags} (h : entryOf line = some (word, tags)) :
    partsFrom '|' false word = [word] ∧ escapedAfter false word = false ∧
      ∃ rest, trimRight line = word ++ '|' :: rest := by
  obtain ⟨more, hmore⟩ := splitEscaped_isPrefix (trimRight line) '|'
  unfold entryOf at h
  generalize hparts : splitEscaped (trimRight line) '|' = parts at h hmore
  obtain ⟨second, others, rfl⟩ : ∃ second others, parts = word :: second :: others := by
    match parts with
    | [] => simp [tagsOf] at h
    | [_] => simp [tagsOf] at h
    | first :: second :: others =>
        simp only [Option.bind_eq_bind, List.head?_cons, Option.bind_some, Option.pure_def,
          Option.bind_eq_some_iff, Option.some.injEq, Prod.mk.injEq] at h
        obtain ⟨_, -, rfl, -⟩ := h
        exact ⟨second, others, rfl⟩
  obtain ⟨hpart, hsplit⟩ := partsFrom_eq_cons hmore.symm
  rcases hsplit with ⟨hnil, -⟩ | ⟨rest, -, htext, hafter⟩
  · cases hnil
  · exact ⟨hpart, hafter, rest, htext⟩

theorem searchLine_eq_some {search line : Str} {tags : Tags} :
    searchLine search line = some tags ↔
      search <+: trimRight line ∧ tagsOf (splitEscaped (trimRight line) '|') = some tags := by
  unfold searchLine
  by_cases h : search <+: trimRight line
  · simp [h]
  · simp [h]

theorem entryOf_of_tagsOf {line : Str} {tags : Tags}
    (h : tagsOf (splitEscaped (trimRight line) '|') = some tags) :
    ∃ word, entryOf line = some (word, tags) := by
  unfold entryOf
  generalize splitEscaped (trimRight line) '|' = parts at h ⊢
  cases parts with
  | nil => cases h
  | cons word others => exact ⟨word, by simp [h]⟩

theorem tagsOf_of_entryOf {line word : Str} {tags : Tags} (h : entryOf line = some (word, tags)) :
    tagsOf (splitEscaped (trimRight line) '|') = some tags := by
  simp only [entryOf, Option.bind_eq_bind, Option.bind_eq_some_iff, Option.pure_def,
    Option.some.injEq, Prod.mk.injEq] at h
  obtain ⟨tags', htags, _, -, -, rfl⟩ := h
  exact htags

/-- A word that begins an entry is read from every entry that begins with it and a separator. -/
theorem entryOf_word {line other word first : Str} {tags tags' : Tags}
    (hother : entryOf other = some (word, tags')) (hline : entryOf line = some (first, tags))
    (hbegins : word ++ ['|'] <+: trimRight line) : first = word := by
  obtain ⟨hword, hafter, -⟩ := entryOf_isPrefix hother
  obtain ⟨rest, hrest⟩ := hbegins
  have hparts : partsFrom '|' false (trimRight line) = word :: partsFrom '|' false rest := by
    rw [← hrest, List.append_assoc]
    exact partsFrom_append_sep hword hafter
  simp only [entryOf, Option.bind_eq_bind, Option.bind_eq_some_iff, Option.pure_def,
    Option.some.injEq, Prod.mk.injEq] at hline
  obtain ⟨_, -, first', hfirst, rfl, -⟩ := hline
  obtain ⟨more, hmore⟩ := splitEscaped_isPrefix (trimRight line) '|'
  rw [hparts] at hmore
  generalize splitEscaped (trimRight line) '|' = parts at hfirst hmore
  cases parts with
  | nil => cases hfirst
  | cons p ps =>
      cases hfirst
      rw [List.cons_append] at hmore
      exact (List.cons.inj hmore).1

end Freehal.Pos
