import Freehal.Lib.Text

/-!
# Ends and beginnings of words

What the taggers count when they guess the part of speech of a word: the ends and beginnings that
the words of the dictionary share with it.
-/

namespace Freehal.Pos

variable {α : Type} [DecidableEq α]

/-- The lengths of the ends and what they are worth. -/
def endSizes : List (Nat × Nat) := [(1, 2), (2, 6), (3, 12), (4, 8), (5, 10), (6, 12)]

def beginSizes : List (Nat × Nat) := [(1, 1), (2, 2), (3, 3)]

def ends (word : List α) : List (List α × Nat) :=
  endSizes.filterMap fun size =>
    if size.1 < word.length then some (word.drop (word.length - size.1), size.2) else none

def begins (word : List α) : List (List α × Nat) :=
  beginSizes.filterMap fun size =>
    if size.1 < word.length then some (word.take size.1, size.2) else none

/-- What the ends and beginnings are worth that another word has as well. -/
def sharedValues (word valWord : List α) : List Nat :=
  ((ends word).filter fun e => e.1.isSuffixOf valWord).map (·.2) ++
    ((begins word).filter fun b => b.1.isPrefixOf valWord).map (·.2)

/-- The parts of speech that are guessed: nouns, adjectives and verbs. -/
def isGuessed (valType : Str) : Bool :=
  valType = "n".toList || valType = "adj".toList || valType = "v".toList

/-- The words of a category that are compared with the word. -/
def candidates (sameCase : List α → Bool) (category : Str) (entries : List (List α × Option Str)) :
    List (List α) :=
  (entries.filter fun e => e.2 = some category && sameCase e.1).map (·.1)

/-- All that is counted for a category. -/
def countedValues (word : List α) (sameCase : List α → Bool) (category : Str)
    (entries : List (List α × Option Str)) : List Nat :=
  (candidates sameCase category entries).flatMap (sharedValues word)

variable {word : List α} {sameCase : List α → Bool} {category : Str}

theorem one_le_of_mem_sharedValues {valWord : List α} {v : Nat} (h : v ∈ sharedValues word valWord) :
    1 ≤ v := by
  rcases List.mem_append.mp h with h | h
  · have hsizes : ∀ size ∈ endSizes, 1 ≤ size.2 := by decide
    obtain ⟨affix, haffix, rfl⟩ := List.mem_map.mp h
    obtain ⟨size, hsize, hsome⟩ := List.mem_filterMap.mp (List.mem_of_mem_filter haffix)
    split at hsome <;> cases hsome
    exact hsizes size hsize
  · have hsizes : ∀ size ∈ beginSizes, 1 ≤ size.2 := by decide
    obtain ⟨affix, haffix, rfl⟩ := List.mem_map.mp h
    obtain ⟨size, hsize, hsome⟩ := List.mem_filterMap.mp (List.mem_of_mem_filter haffix)
    split at hsome <;> cases hsome
    exact hsizes size hsize

omit [DecidableEq α] in
theorem candidates_append (entries entries' : List (List α × Option Str)) :
    candidates sameCase category (entries ++ entries') =
      candidates sameCase category entries ++ candidates sameCase category entries' := by
  rw [candidates, List.filter_append, List.map_append]
  rfl

theorem countedValues_append (entries entries' : List (List α × Option Str)) :
    countedValues word sameCase category (entries ++ entries') =
      countedValues word sameCase category entries ++
        countedValues word sameCase category entries' := by
  rw [countedValues, candidates_append, List.flatMap_append]
  rfl

omit [DecidableEq α] in
theorem candidates_singleton (e : List α × Option Str) :
    candidates sameCase category [e] = if e.2 = some category ∧ sameCase e.1 = true then [e.1] else [] := by
  rw [candidates, List.filter_singleton]
  by_cases h : e.2 = some category ∧ sameCase e.1 = true
  · simp [h]
  · rw [if_neg h]
    have hfalse : (decide (e.2 = some category) && sameCase e.1) = false := by
      simpa [not_and] using h
    simp [hfalse]

omit [DecidableEq α] in
/-- The order of the dictionary does not matter. -/
theorem candidates_perm {entries entries' : List (List α × Option Str)}
    (h : entries.Perm entries') :
    (candidates sameCase category entries).Perm (candidates sameCase category entries') :=
  (h.filter _).map _

theorem countedValues_perm {entries entries' : List (List α × Option Str)}
    (h : entries.Perm entries') :
    (countedValues word sameCase category entries).Perm
      (countedValues word sameCase category entries') :=
  (candidates_perm h).flatMap_right _

end Freehal.Pos
