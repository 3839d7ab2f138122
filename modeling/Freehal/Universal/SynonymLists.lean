import Freehal.Lib.Block
import Freehal.Universal.Negotiating

/-!
# Lists of synonyms

`put_synonym` of `hal2012-universal.c`. The list is a block of pointers with a null pointer behind
the last synonym; every synonym is made for the call that puts it there.
-/

namespace Freehal.Universal.SynonymLists

open Freehal.Lib
open Negotiating (Synonym maxSynonymCount)

def maxEntityWordsCount : Nat := 9

/-- The pointers and the position behind the last synonym. -/
structure SynonymList where
  synonyms : Block (Option Synonym)
  position : Nat

/-- `prepare_synonyms` -/
def prepareSynonyms : SynonymList := ⟨Block.calloc (maxSynonymCount + 1) none, 0⟩

/-- The comparison of the first `k` words, each list ending in a null pointer. -/
def wordsMatch : Nat → List Word → List Word → Bool
  | 0, _, _ => true
  | _ + 1, [], [] => true
  | _ + 1, [], _ :: _ => false
  | _ + 1, _ :: _, [] => false
  | k + 1, a :: as, b :: bs => if a.name ≠ b.name then false else wordsMatch k as bs

/-- The loop of `check_synonym` from position `i` on, with `n` positions before the last one. -/
def checkFrom (syn : Synonym) (synonyms : Block (Option Synonym)) (b : Nat) :
    Nat → Nat → Option Bool
  | 0, i => (synonyms.read i).map fun _ => false
  | n + 1, i =>
      match synonyms.read i with
      | none => none
      | some none => some false
      | some (some other) =>
          if i < b then
            if syn.level < other.level then checkFrom syn synonyms b n (i + 1)
            else if syn.direction ≠ other.direction then checkFrom syn synonyms b n (i + 1)
            else if wordsMatch maxEntityWordsCount syn.words other.words then some true
            else checkFrom syn synonyms b n (i + 1)
          else some false

def checkSynonym (syn : Synonym) (synonyms : Block (Option Synonym)) (a b : Nat) : Option Bool :=
  checkFrom syn synonyms b (maxSynonymCount - a) a

def putSynonymRaw (syn : Synonym) (list : SynonymList) : Option SynonymList :=
  if maxSynonymCount ≤ list.position then some list
  else (list.synonyms.write list.position (some syn)).map fun synonyms =>
    ⟨synonyms, list.position + 1⟩

def putSynonym (list : SynonymList) (syn : Synonym) : Option SynonymList := do
  if ← checkSynonym syn list.synonyms 0 list.position then return list
  else putSynonymRaw syn list

/-! ## What is put where -/

/-- The first synonym makes the second one superfluous. -/
def Covers (a b : Synonym) : Prop :=
  a.direction = b.direction ∧
    (a.words.map (·.name)).take maxEntityWordsCount =
      (b.words.map (·.name)).take maxEntityWordsCount ∧ a.level ≤ b.level

instance (a b : Synonym) : Decidable (Covers a b) := inferInstanceAs (Decidable (_ ∧ _ ∧ _))

/-- A synonym that none covers is put behind the others while there is room. -/
def offer (entries : List Synonym) (syn : Synonym) : List Synonym :=
  if ∃ other ∈ entries, Covers other syn then entries
  else if maxSynonymCount ≤ entries.length then entries
  else entries ++ [syn]

theorem wordsMatch_iff (k : Nat) (as bs : List Word) :
    wordsMatch k as bs = true ↔ (as.map (·.name)).take k = (bs.map (·.name)).take k := by
  induction k generalizing as bs with
  | zero => simp [wordsMatch]
  | succ k ih =>
      cases as with
      | nil => cases bs <;> simp [wordsMatch]
      | cons a as =>
          cases bs with
          | nil => simp [wordsMatch]
          | cons b bs => by_cases hname : a.name = b.name <;> simp [wordsMatch, hname, ih]

/-- The block holds these synonyms, one behind the other, and null pointers behind them. -/
structure Holds (list : SynonymList) (entries : List Synonym) : Prop where
  size : list.synonyms.size = maxSynonymCount + 1
  read : ∀ i, i < maxSynonymCount + 1 → list.synonyms.read (i : Nat) = some entries[i]?
  position : list.position = entries.length
  bound : entries.length ≤ maxSynonymCount

theorem holds_prepareSynonyms : Holds prepareSynonyms [] where
  size := Block.size_calloc
  read i hi := Block.read_calloc (by omega) (by omega)
  position := rfl
  bound := Nat.zero_le _

section

variable {list : SynonymList} {entries : List Synonym}

theorem Holds.mem_of_read (h : Holds list entries) {u : Nat} {syn : Synonym}
    (hread : list.synonyms.read u = some (some syn)) : syn ∈ entries := by
  by_cases hu : u < maxSynonymCount + 1
  · rw [h.read u hu] at hread
    exact List.mem_of_getElem? (Option.some.inj hread)
  · rw [Block.read_of_size_le (by rw [h.size]; omega)] at hread
    cases hread

/-- An entry that is skipped, or has other words, does not cover the synonym. -/
theorem covers_iff (syn other : Synonym) :
    Covers other syn ↔ ¬ syn.level < other.level ∧ ¬ syn.direction ≠ other.direction ∧
      wordsMatch maxEntityWordsCount syn.words other.words = true := by
  rw [Covers, wordsMatch_iff, Int.not_lt, not_not, eq_comm, @eq_comm _ (List.take _ _)]
  tauto

theorem Holds.checkFrom (h : Holds list entries) (syn : Synonym) {n i : Nat}
    (hn : n + i = maxSynonymCount) (hi : i ≤ entries.length) :
    checkFrom syn list.synonyms list.position n i =
      some (decide (∃ other ∈ entries.drop i, Covers other syn)) := by
  induction n generalizing i with
  | zero =>
      have hread := h.read i (by omega)
      have hbound := h.bound
      have hdrop : entries.drop i = [] := List.drop_eq_nil_of_le (by omega)
      rw [SynonymLists.checkFrom, hread, hdrop]
      simp
  | succ n ih =>
      have hread := h.read i (by omega)
      rw [SynonymLists.checkFrom, hread]
      by_cases hlt : i < entries.length
      · have hnext := @ih (i + 1) (by omega) hlt
        have hcovers := covers_iff syn entries[i]
        rw [List.getElem?_eq_getElem hlt, List.drop_eq_getElem_cons hlt]
        simp only [h.position, hlt, if_true, List.mem_cons, exists_eq_or_imp] at hnext ⊢
        by_cases hlevel : syn.level < entries[i].level
        · rw [if_pos hlevel, hnext]
          simp [hcovers, hlevel]
        · rw [if_neg hlevel]
          by_cases hdirection : syn.direction ≠ entries[i].direction
          · rw [if_pos hdirection, hnext]
            simp [hcovers, hdirection]
          · rw [if_neg hdirection]
            by_cases hwords : wordsMatch maxEntityWordsCount syn.words entries[i].words = true
            · rw [if_pos hwords]
              simp [hcovers.mpr ⟨hlevel, hdirection, hwords⟩]
            · rw [if_neg hwords, hnext]
              simp [hcovers, hwords]
      · rw [List.getElem?_eq_none (by omega), List.drop_eq_nil_of_le (by omega)]
        simp

theorem Holds.checkSynonym (h : Holds list entries) (syn : Synonym) :
    checkSynonym syn list.synonyms 0 list.position =
      some (decide (∃ other ∈ entries, Covers other syn)) :=
  h.checkFrom syn rfl (Nat.zero_le _)

/-- No call leaves the block, and it puts the synonym where `offer` puts it. -/
theorem Holds.putSynonym (h : Holds list entries) (syn : Synonym) :
    ∃ list', putSynonym list syn = some list' ∧ Holds list' (offer entries syn) := by
  unfold SynonymLists.putSynonym offer
  rw [h.checkSynonym]
  by_cases hcovered : ∃ other ∈ entries, Covers other syn
  · exact ⟨list, by simp [hcovered], by rwa [if_pos hcovered]⟩
  · rw [if_neg hcovered]
    by_cases hfull : maxSynonymCount ≤ entries.length
    · refine ⟨list, ?_, by rwa [if_pos hfull]⟩
      simp [hcovered, putSynonymRaw, h.position, hfull]
    · obtain ⟨synonyms, hwrite⟩ := Block.exists_write (b := list.synonyms)
        (i := (entries.length : Nat)) (a := some syn) (by omega) (by rw [h.size]; omega)
      refine ⟨⟨synonyms, list.position + 1⟩, ?_, ?_⟩
      · simp [hcovered, putSynonymRaw, h.position, hfull, hwrite]
      · rw [if_neg hfull]
        refine ⟨(Block.size_write hwrite).trans h.size, fun i hi => ?_, ?_, ?_⟩
        · by_cases hlast : i = entries.length
          · subst hlast
            rw [Block.read_write_self hwrite, List.getElem?_concat_length]
          · rw [Block.read_write_of_ne hwrite (by omega), h.read i hi]
            by_cases hlt : i < entries.length
            · rw [List.getElem?_append_left hlt]
            · rw [List.getElem?_eq_none (by omega), List.getElem?_eq_none (by simp; omega)]
        · rw [List.length_append, h.position]
          rfl
        · rw [List.length_append, List.length_singleton]
          omega

/-- No entry covers a later one. -/
def Apart (entries : List Synonym) : Prop := entries.Pairwise fun a b => ¬ Covers a b

theorem Apart.offer (h : Apart entries) (syn : Synonym) : Apart (offer entries syn) := by
  unfold SynonymLists.offer
  split
  · exact h
  · rename_i hcovered
    split
    · exact h
    · refine List.pairwise_append.mpr ⟨h, List.pairwise_singleton _ _, fun a ha b hb hcovers => ?_⟩
      rw [List.mem_singleton.mp hb] at hcovers
      exact hcovered ⟨a, ha, hcovers⟩

/-- Nothing is lost while there is room: an entry covers the synonym that was put. -/
theorem covered_offer (syn : Synonym) (hroom : entries.length < maxSynonymCount) :
    ∃ other ∈ offer entries syn, Covers other syn := by
  unfold SynonymLists.offer
  split
  · assumption
  · rw [if_neg (by omega)]
    exact ⟨syn, by simp, rfl, rfl, Int.le_refl _⟩

/-- Every run of calls. -/
theorem Holds.run (h : Holds list entries) (hapart : Apart entries) (syns : List Synonym) :
    ∃ list' entries', syns.foldlM SynonymLists.putSynonym list = some list' ∧ Holds list' entries' ∧
      Apart entries' := by
  induction syns generalizing list entries with
  | nil => exact ⟨list, entries, rfl, h, hapart⟩
  | cons syn syns ih =>
      obtain ⟨list', hput, hholds⟩ := h.putSynonym syn
      obtain ⟨last, entries', hrun, hlast⟩ := ih hholds (hapart.offer syn)
      exact ⟨last, entries', by rw [List.foldlM_cons, hput]; exact hrun, hlast⟩

end

/-- Whatever synonyms are put into a list: no call reads or writes outside the block, the positions
below `position` are filled and the others null, and no entry has the direction and the first nine
words of an earlier one with a level that is not below its level. -/
theorem putSynonym_run (syns : List Synonym) :
    ∃ list, syns.foldlM putSynonym prepareSynonyms = some list ∧ list.position ≤ 99 ∧
      list.synonyms.size = 100 ∧
      (∀ i < list.position, ∃ syn, list.synonyms.read (i : Nat) = some (some syn)) ∧
      (∀ i < 100, list.position ≤ i → list.synonyms.read (i : Nat) = some none) ∧
      ∀ i j a b, i < j → j < list.position → list.synonyms.read (i : Nat) = some (some a) →
        list.synonyms.read (j : Nat) = some (some b) →
          ¬ (a.direction = b.direction ∧
            (a.words.map (·.name)).take 9 = (b.words.map (·.name)).take 9 ∧ a.level ≤ b.level) := by
  obtain ⟨list, entries, hrun, h, hapart⟩ :=
    holds_prepareSynonyms.run List.Pairwise.nil syns
  have hlen : entries.length ≤ 99 := h.bound
  have hread : ∀ i, i < 100 → list.synonyms.read (i : Nat) = some entries[i]? := h.read
  refine ⟨list, hrun, h.position ▸ hlen, h.size, fun i hi => ?_, fun i hi hnull => ?_, ?_⟩
  · rw [h.position] at hi
    exact ⟨entries[i], by rw [hread i (by omega), List.getElem?_eq_getElem hi]⟩
  · rw [h.position] at hnull
    rw [hread i hi, List.getElem?_eq_none hnull]
  · intro i j a b hij hj ha hb
    rw [h.position] at hj
    rw [hread i (by omega), Option.some.injEq] at ha
    rw [hread j (by omega), Option.some.injEq] at hb
    obtain ⟨hi, rfl⟩ := List.getElem?_eq_some_iff.mp ha
    obtain ⟨hj, rfl⟩ := List.getElem?_eq_some_iff.mp hb
    exact List.pairwise_iff_getElem.mp hapart i j hi hj hij

end Freehal.Universal.SynonymLists
