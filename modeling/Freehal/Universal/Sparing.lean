import Freehal.Universal.Deleting
import Mathlib.Data.List.Nodup

/-!
# What a deletion spares

A deletion should leave the groups without a matching word as they are, and no group that begins
with one. The null pointer that stays behind a removal and the fifty rounds decide where it does.
-/

namespace Freehal.Universal

/-- The word contains the expression and is at most three characters longer. -/
def matchesExp (exp : Str) (word : Word) : Bool :=
  strstr word.name exp && decide (word.name.length ≤ exp.length + 3)

def isClean (exp : Str) (words : List Word) : Bool := words.all fun w => !matchesExp exp w

def begins (exp : Str) (words : List Word) : Bool := words.head?.any (matchesExp exp)

/-- The groups without a matching word are in the list as often as before, in their order and with
their words, and no group begins with a matching word. -/
structure Spared (exp : Str) (s s' : Groups) : Prop where
  kept : s'.list.filter (fun g => isClean exp (s.words g))
    = s.list.filter (fun g => isClean exp (s.words g))
  words : ∀ g ∈ s.list, isClean exp (s.words g) = true → s'.words g = s.words g
  heads : ∀ g ∈ s'.list, begins exp (s'.words g) = false

/-! ## The rounds of several groups -/

def totalRounds (exp : Str) (groups : List (List Word)) : Nat :=
  groups.foldr (fun words n => rounds exp words + n) 0

/-- A group is removed within `t` rounds. -/
def SomeRemoved (exp : Str) (t : Nat) (groups : List (List Word)) : Prop :=
  ∃ before words after, groups = before ++ words :: after ∧ isRemoved exp words = true
    ∧ totalRounds exp (before ++ [words]) ≤ t

/-- Every group that begins with a matching word is removed within `t` rounds. -/
def BeginningsRemoved (exp : Str) (t : Nat) (groups : List (List Word)) : Prop :=
  ∀ before words after, groups = before ++ words :: after → begins exp words = true →
    isRemoved exp words = true ∧ totalRounds exp (before ++ [words]) ≤ t

/-- An empty expression deletes nothing. Otherwise no round may be missing for a group that has to
go, and a removal before the last group needs a last group that may be there twice. -/
def Spares (exp : Str) (groups : List (List Word)) : Prop :=
  if exp = [] then ∀ words ∈ groups, begins exp words = false
  else BeginningsRemoved exp 50 groups ∧
    ∀ front last, groups = front ++ [last] → SomeRemoved exp 50 front →
      isClean exp last = false ∧ begins exp last = false

variable {exp : Str} {s : Groups} {pre front : List Nat} {g last n t : Nat} {ws ws' : List Word}
  {groups : List (List Word)} {clean : Nat → Bool}

theorem totalRounds_cons (ws : List Word) (groups : List (List Word)) :
    totalRounds exp (ws :: groups) = rounds exp ws + totalRounds exp groups := rfl

theorem someRemoved_cons (h : rounds exp ws ≤ t) : SomeRemoved exp t (ws :: groups) ↔
    isRemoved exp ws = true ∨ SomeRemoved exp (t - rounds exp ws) groups := by
  constructor
  · rintro ⟨before, words, after, heq, hremoved, htotal⟩
    cases before with
    | nil =>
        obtain ⟨rfl, rfl⟩ := List.cons_eq_cons.mp heq
        exact Or.inl hremoved
    | cons first before =>
        obtain ⟨rfl, hgroups⟩ : ws = first ∧ groups = before ++ words :: after :=
          List.cons_eq_cons.mp heq
        rw [List.cons_append, totalRounds_cons] at htotal
        exact Or.inr ⟨before, words, after, hgroups, hremoved, by omega⟩
  · rintro (hremoved | ⟨before, words, after, rfl, hremoved, htotal⟩)
    · exact ⟨[], ws, groups, rfl, hremoved, h⟩
    · refine ⟨ws :: before, words, after, rfl, hremoved, ?_⟩
      rw [List.cons_append, totalRounds_cons]
      omega

theorem not_someRemoved (h : t < rounds exp ws) : ¬ SomeRemoved exp t (ws :: groups) := by
  rintro ⟨before, words, after, heq, -, htotal⟩
  cases before with
  | nil =>
      obtain ⟨rfl, rfl⟩ := List.cons_eq_cons.mp heq
      have hone : totalRounds exp [ws] = rounds exp ws := rfl
      rw [List.nil_append] at htotal
      omega
  | cons first before =>
      obtain ⟨rfl, -⟩ : ws = first ∧ groups = before ++ words :: after := List.cons_eq_cons.mp heq
      rw [List.cons_append, totalRounds_cons] at htotal
      omega

theorem beginningsRemoved_cons (h : rounds exp ws ≤ t) :
    BeginningsRemoved exp t (ws :: groups) ↔ (begins exp ws = true → isRemoved exp ws = true)
      ∧ BeginningsRemoved exp (t - rounds exp ws) groups := by
  constructor
  · intro hall
    refine ⟨fun hbegins => (hall [] ws groups rfl hbegins).1, ?_⟩
    rintro before words after rfl hbegins
    obtain ⟨hremoved, htotal⟩ := hall (ws :: before) words after rfl hbegins
    rw [List.cons_append, totalRounds_cons] at htotal
    exact ⟨hremoved, by omega⟩
  · rintro ⟨hfirst, hall⟩ before words after heq hbegins
    cases before with
    | nil =>
        obtain ⟨rfl, rfl⟩ := List.cons_eq_cons.mp heq
        exact ⟨hfirst hbegins, h⟩
    | cons first before =>
        obtain ⟨rfl, hgroups⟩ : ws = first ∧ groups = before ++ words :: after :=
          List.cons_eq_cons.mp heq
        obtain ⟨hremoved, htotal⟩ := hall before words after hgroups hbegins
        rw [List.cons_append, totalRounds_cons]
        exact ⟨hremoved, by omega⟩

/-- Once the rounds are used up, no group may begin with a matching word. -/
theorem beginningsRemoved_of_lt (h : t < rounds exp ws) :
    BeginningsRemoved exp t (ws :: groups) ↔ ∀ words ∈ ws :: groups, begins exp words = false := by
  constructor
  · intro hall words hwords
    obtain ⟨before, after, heq⟩ := List.append_of_mem hwords
    by_contra hbegins
    refine not_someRemoved h ⟨before, words, after, heq, hall before words after heq ?_⟩
    simpa using hbegins
  · intro hnone before words after heq hbegins
    rw [hnone words (by rw [heq]; simp)] at hbegins
    cases hbegins

theorem not_someRemoved_nil : ¬ SomeRemoved exp t [] := by
  rintro ⟨before, words, after, heq, -⟩
  simp at heq

theorem beginningsRemoved_nil : BeginningsRemoved exp t [] := by
  intro before words after heq
  simp at heq

theorem beginningsRemoved_singleton : BeginningsRemoved exp t [ws] ↔
    (begins exp ws = true → isRemoved exp ws = true ∧ rounds exp ws ≤ t) := by
  by_cases h : rounds exp ws ≤ t
  · rw [beginningsRemoved_cons h]
    simp [beginningsRemoved_nil, h]
  · rw [beginningsRemoved_of_lt (by omega)]
    simp [h]

/-! ## Words -/

theorem matchesExp_of_isDeleted {w : Word} (h : isDeleted exp w = true) :
    matchesExp exp w = true := by
  simp only [isDeleted, Bool.and_eq_true, decide_eq_true_eq] at h
  simp only [matchesExp, Bool.and_eq_true, decide_eq_true_eq]
  exact ⟨h.1, by omega⟩

theorem isFinished_of_isClean (h : isClean exp ws = true) : IsFinished exp ws := by
  intro w hw
  by_contra hdeleted
  have hmatches := matchesExp_of_isDeleted (by simpa using hdeleted : isDeleted exp w = true)
  have hnot := List.all_eq_true.mp h w hw
  rw [hmatches] at hnot
  cases hnot

/-- A group that is removed is not clean. -/
theorem isClean_of_isRemoved (h : isRemoved exp ws = true) : isClean exp ws = false := by
  by_contra hclean
  have hfinished := isFinished_of_isClean (by simpa using hclean : isClean exp ws = true)
  simp only [isRemoved, Bool.or_eq_true, Option.any_eq_true] at h
  rcases h with ⟨w, hw, hdeleted⟩ | ⟨w, hw, hdeleted⟩
  · rw [hfinished w (List.mem_of_head? hw)] at hdeleted
    cases hdeleted
  · rw [hfinished w (List.mem_of_getLast? hw)] at hdeleted
    cases hdeleted

theorem begins_congr (h : ws'.head? = ws.head?) : begins exp ws' = begins exp ws := by
  rw [begins, begins, h]

/-- The first word of a group that stays is not deleted. -/
theorem begins_filter (h : isRemoved exp ws = false) :
    begins exp (ws.filter fun w => !isDeleted exp w) = begins exp ws := by
  cases ws with
  | nil => rfl
  | cons w ws =>
      have hfirst : isDeleted exp w = false := by simpa using (isRemoved_eq_false.mp h).1
      simp [begins, hfirst]

theorem isFinished_filter (ws : List Word) :
    IsFinished exp (ws.filter fun w => !isDeleted exp w) := by
  intro w hw
  simpa using (List.mem_filter.mp hw).2

/-! ## The list at the end -/

/-- The pointers to clean groups are those of `groups`, and no group begins with a match. -/
def Ends (exp : Str) (clean : Nat → Bool) (groups : List Nat) (s : Groups) : Prop :=
  s.list.filter clean = groups.filter clean ∧ ∀ g ∈ s.list, begins exp (s.words g) = false

/-- The same list of pointers, and one group with other words behind its first one. -/
theorem ends_withWords {list : List Nat} (hhead : begins exp ws = begins exp (s.words g)) :
    Ends exp clean list (s.withWords g ws) ↔ Ends exp clean list s := by
  have hbegins : ∀ h, begins exp ((s.withWords g ws).words h) = begins exp (s.words h) := by
    intro h
    by_cases heq : h = g
    · rw [heq, Groups.withWords_words, hhead]
    · rw [Groups.withWords_of_ne heq]
  unfold Ends
  simp only [Groups.withWords_list, hbegins]

theorem filter_replicate_eq_iff :
    (List.replicate (n + 1) last).filter clean = [last].filter clean
      ↔ (0 < n → clean last = false) := by
  cases hclean : clean last with
  | false => simp [hclean]
  | true =>
      rw [List.filter_replicate, if_pos hclean]
      simp [hclean, List.replicate_succ]

/-- All pointers are still there, and the last one more often. -/
theorem ends_iff_of_list (hlist : s.list = pre ++ front ++ List.replicate (n + 1) last) :
    Ends exp clean (pre ++ front ++ [last]) s ↔ (0 < n → clean last = false)
      ∧ (∀ g ∈ pre, begins exp (s.words g) = false)
      ∧ ∀ words ∈ (front ++ [last]).map s.words, begins exp words = false := by
  unfold Ends
  rw [hlist, List.filter_append, List.filter_append _ [last], List.append_cancel_left_eq,
    filter_replicate_eq_iff]
  simp only [List.mem_append, List.mem_map, List.mem_replicate, List.mem_singleton]
  constructor
  · rintro ⟨hclean, hall⟩
    refine ⟨hclean, fun g hg => hall g (Or.inl (Or.inl hg)), ?_⟩
    rintro words ⟨g, hg | rfl, rfl⟩
    · exact hall g (Or.inl (Or.inr hg))
    · exact hall g (Or.inr ⟨by omega, rfl⟩)
  · rintro ⟨hclean, hpre, hall⟩
    refine ⟨hclean, ?_⟩
    rintro g ((hg | hg) | ⟨-, rfl⟩)
    · exact hpre g hg
    · exact hall _ ⟨g, Or.inl hg, rfl⟩
    · exact hall _ ⟨g, Or.inr rfl, rfl⟩

/-! ## The last group -/

theorem withWords_words_of_not_mem (hg : g ∉ pre) (ws : List Word) :
    ∀ h ∈ pre, (s.withWords g ws).words h = s.words h := by
  intro h hh
  refine Groups.withWords_of_ne ?_ ws
  rintro rfl
  exact hg hh

/-- The last group alone: it goes if it is removed in time. -/
theorem ends_last (h : Reaches exp s pre last [])
    (hclean : clean last = isClean exp (s.words last)) :
    Ends exp clean (pre ++ [last]) (deleteRounds exp t s) ↔
      (∀ g ∈ pre, begins exp (s.words g) = false) ∧ BeginningsRemoved exp t [s.words last] := by
  have hstay : ∀ {ws}, begins exp ws = begins exp (s.words last) →
      (Ends exp clean (pre ++ [last]) (s.withWords last ws) ↔
        (∀ g ∈ pre, begins exp (s.words g) = false) ∧ begins exp (s.words last) = false) := by
    intro ws hhead
    have hlist : s.list = pre ++ [] ++ List.replicate (0 + 1) last := by rw [h.list]; simp
    have := @ends_iff_of_list exp s pre [] last 0 clean hlist
    rw [ends_withWords hhead]
    simpa using this
  rw [beginningsRemoved_singleton]
  by_cases ht : rounds exp (s.words last) ≤ t
  · cases hremoved : isRemoved exp (s.words last) with
    | true =>
        obtain ⟨ws, hrun⟩ := h.rounds_removed hremoved ht
        have hwords := @withWords_words_of_not_mem s pre last h.fresh ws
        have hend : deleteRounds exp t s = { words := (s.withWords last ws).words, list := pre } := by
          rw [Groups.withWords_self] at hrun
          have hpre : pre ++ removal [] = pre := by simp [removal]
          rw [hrun, hpre]
          apply deleteRounds_of_finished
          intro k hk
          rw [hwords k hk]
          exact h.finished k hk
        have hdirty : clean last = false := by rw [hclean, isClean_of_isRemoved hremoved]
        have hfilter : (pre ++ [last]).filter clean = pre.filter clean := by simp [hdirty]
        have hheads : (∀ k ∈ pre, begins exp ((s.withWords last ws).words k) = false)
            ↔ ∀ k ∈ pre, begins exp (s.words k) = false :=
          forall₂_congr fun k hk => by rw [hwords k hk]
        rw [hend, Ends, hfilter]
        simp only [hheads, true_and, ht, and_self, implies_true, and_true]
    | false =>
        have hrun := h.rounds_kept hremoved ht
        rw [Groups.withWords_self] at hrun
        have hend : deleteRounds exp t s
            = s.withWords last ((s.words last).filter fun w => !isDeleted exp w) := by
          rw [hrun]
          apply deleteRounds_of_finished
          intro k hk
          rw [Groups.withWords_list, h.list] at hk
          rcases List.mem_append.mp hk with hk | hk
          · exact (h.withWords _).finished k hk
          · rw [List.mem_singleton.mp hk, Groups.withWords_words]
            exact isFinished_filter _
        rw [hend, hstay (begins_filter hremoved)]
        simp
  · obtain ⟨ws, hhead, hrun⟩ := h.rounds_exhausted (by omega : t < rounds exp (s.words last))
    rw [Groups.withWords_self] at hrun
    rw [hrun, hstay (begins_congr hhead)]
    simp [ht]

/-- The last group with a second pointer: it stays. -/
theorem ends_copies (h : Reaches exp s pre last (List.replicate (n + 1) last)) :
    Ends exp clean (pre ++ [last]) (deleteRounds exp t s) ↔
      clean last = false ∧ (∀ g ∈ pre, begins exp (s.words g) = false)
        ∧ begins exp (s.words last) = false := by
  obtain ⟨ws, hhead, hrun⟩ := h.rounds_copies t (s.words last)
  rw [Groups.withWords_self] at hrun
  have hlist : s.list = pre ++ [] ++ List.replicate (n + 1 + 1) last := by
    rw [h.list, List.append_nil]
    rfl
  have := @ends_iff_of_list exp s pre [] last (n + 1) clean hlist
  rw [hrun, ends_withWords (begins_congr hhead)]
  simpa using this

/-! ## All groups -/

theorem removal_append (n : Nat) :
    removal (front ++ List.replicate (n + 1) last) = front ++ List.replicate (n + 2) last := by
  rw [← removal_replicate, removal, removal, List.getLast?_append, List.getLast?_replicate,
    if_neg (by omega), Option.some_or, List.append_assoc]

/-- The groups of `pre` are finished, those of `front` have not been reached, and `n` pointers to
the last group were added. -/
structure Arranged (exp : Str) (clean : Nat → Bool) (s : Groups) (pre front : List Nat)
    (last n : Nat) : Prop where
  list : s.list = pre ++ front ++ List.replicate (n + 1) last
  nodup : (pre ++ front ++ [last]).Nodup
  finished : ∀ g ∈ pre, IsFinished exp (s.words g)
  clean : ∀ g ∈ front ++ [last], clean g = isClean exp (s.words g)

theorem Arranged.not_mem (h : Arranged exp clean s pre (g :: front) last n) :
    g ∉ pre ++ (front ++ [last]) ∧ (pre ++ (front ++ [last])).Nodup := by
  have happend : pre ++ g :: front ++ [last] = pre ++ g :: (front ++ [last]) := by simp
  have hnodup := h.nodup
  rw [happend] at hnodup
  exact List.nodup_cons.mp (List.nodup_middle.mp hnodup)

theorem Arranged.reaches (h : Arranged exp clean s pre (g :: front) last n) :
    Reaches exp s pre g (front ++ List.replicate (n + 1) last) where
  list := by rw [h.list]; simp
  finished := h.finished
  fresh hg := h.not_mem.1 (List.mem_append_left _ hg)

theorem Arranged.reaches_last (h : Arranged exp clean s pre [] last n) :
    Reaches exp s pre last (List.replicate n last) where
  list := by rw [h.list, List.append_nil]; rfl
  finished := h.finished
  fresh hlast := by
    have hnodup := h.nodup
    rw [List.append_nil] at hnodup
    exact (List.nodup_append.mp hnodup).2.2 last hlast last (by simp) rfl

/-- The groups that follow keep their words. -/
theorem Arranged.words_behind (h : Arranged exp clean s pre (g :: front) last n)
    (ws : List Word) : ∀ k ∈ front ++ [last], (s.withWords g ws).words k = s.words k := by
  intro k hk
  refine Groups.withWords_of_ne ?_ ws
  rintro rfl
  exact h.not_mem.1 (List.mem_append_right pre hk)

theorem Arranged.map_behind (h : Arranged exp clean s pre (g :: front) last n) (ws : List Word) :
    (front ++ [last]).map (s.withWords g ws).words = (front ++ [last]).map s.words :=
  List.map_congr_left (h.words_behind ws)

theorem Arranged.clean_behind (h : Arranged exp clean s pre (g :: front) last n)
    (ws : List Word) :
    ∀ k ∈ front ++ [last], clean k = isClean exp ((s.withWords g ws).words k) := by
  intro k hk
  rw [h.words_behind ws k hk]
  exact h.clean k (List.mem_cons_of_mem g hk)

/-- A group is removed. -/
theorem Arranged.removed (h : Arranged exp clean s pre (g :: front) last n) (ws : List Word) :
    Arranged exp clean
      { words := (s.withWords g ws).words
        list := pre ++ removal (front ++ List.replicate (n + 1) last) } pre front last (n + 1) where
  list := by rw [removal_append, ← List.append_assoc]
  nodup := by
    rw [List.append_assoc]
    exact h.not_mem.2
  finished k hk := by
    rw [withWords_words_of_not_mem h.reaches.fresh ws k hk]
    exact h.finished k hk
  clean := h.clean_behind ws

/-- A group stays, with no word that is deleted. -/
theorem Arranged.kept (h : Arranged exp clean s pre (g :: front) last n)
    (hws : IsFinished exp ws) :
    Arranged exp clean (s.withWords g ws) (pre ++ [g]) front last n where
  list := by rw [Groups.withWords_list, h.list]; simp
  nodup := by
    have hnodup := h.nodup
    rwa [List.append_cons pre g front] at hnodup
  finished := by
    rw [List.forall_mem_append, List.forall_mem_singleton, Groups.withWords_words]
    refine ⟨fun k hk => ?_, hws⟩
    rw [withWords_words_of_not_mem h.reaches.fresh ws k hk]
    exact h.finished k hk
  clean := h.clean_behind ws

theorem begins_before (h : Reaches exp s pre g rest) (ws : List Word) :
    (∀ k ∈ pre, begins exp ((s.withWords g ws).words k) = false)
      ↔ ∀ k ∈ pre, begins exp (s.words k) = false :=
  forall₂_congr fun k hk => by rw [withWords_words_of_not_mem h.fresh ws k hk]

/-- What is asked of the groups that are left. -/
structure Remaining (exp : Str) (clean : Nat → Bool) (s : Groups) (pre front : List Nat)
    (last n t : Nat) : Prop where
  finished : ∀ g ∈ pre, begins exp (s.words g) = false
  beginnings : BeginningsRemoved exp t ((front ++ [last]).map s.words)
  last : 0 < n ∨ SomeRemoved exp t (front.map s.words) →
    clean last = false ∧ begins exp (s.words last) = false

theorem remaining_removed (h : Arranged exp clean s pre (g :: front) last n)
    (hremoved : isRemoved exp (s.words g) = true) (ht : rounds exp (s.words g) ≤ t)
    (ws : List Word) (list : List Nat) :
    Remaining exp clean { words := (s.withWords g ws).words, list := list } pre front last (n + 1)
        (t - rounds exp (s.words g)) ↔ Remaining exp clean s pre (g :: front) last n t := by
  have hpre := begins_before h.reaches ws
  have hlast := h.words_behind ws last (by simp)
  constructor
  · intro hrest
    refine ⟨hpre.mp hrest.finished, ?_, fun _ => ?_⟩
    · have hbeginnings := hrest.beginnings
      simp only [h.map_behind ws] at hbeginnings
      exact (beginningsRemoved_cons ht).mpr ⟨fun _ => hremoved, hbeginnings⟩
    · have hlast' := hrest.last (Or.inl (Nat.succ_pos n))
      rwa [hlast] at hlast'
  · intro hall
    refine ⟨hpre.mpr hall.finished, ?_, fun _ => ?_⟩
    · simp only [h.map_behind ws]
      exact ((beginningsRemoved_cons ht).mp hall.beginnings).2
    · rw [hlast]
      exact hall.last (Or.inr ((someRemoved_cons ht).mpr (Or.inl hremoved)))

theorem remaining_kept (h : Arranged exp clean s pre (g :: front) last n)
    (hkept : isRemoved exp (s.words g) = false) (ht : rounds exp (s.words g) ≤ t)
    (hbegins : begins exp ws = begins exp (s.words g)) :
    Remaining exp clean (s.withWords g ws) (pre ++ [g]) front last n (t - rounds exp (s.words g))
      ↔ Remaining exp clean s pre (g :: front) last n t := by
  have hpre : (∀ k ∈ pre ++ [g], begins exp ((s.withWords g ws).words k) = false)
      ↔ (∀ k ∈ pre, begins exp (s.words k) = false) ∧ begins exp (s.words g) = false := by
    rw [List.forall_mem_append, List.forall_mem_singleton, Groups.withWords_words, hbegins,
      begins_before h.reaches]
  have hlast := h.words_behind ws last (by simp)
  have hfront : front.map (s.withWords g ws).words = front.map s.words :=
    List.map_congr_left fun k hk => h.words_behind ws k (by simp [hk])
  have hsome : SomeRemoved exp t (s.words g :: front.map s.words)
      ↔ SomeRemoved exp (t - rounds exp (s.words g)) (front.map s.words) := by
    rw [someRemoved_cons ht, hkept]
    simp
  constructor
  · intro hrest
    obtain ⟨hfinished, hfirst⟩ := hpre.mp hrest.finished
    refine ⟨hfinished, ?_, fun hreason => ?_⟩
    · have hbeginnings := hrest.beginnings
      rw [h.map_behind ws] at hbeginnings
      refine (beginningsRemoved_cons ht).mpr ⟨fun hyes => ?_, hbeginnings⟩
      rw [hfirst] at hyes
      cases hyes
    · have hlast' := hrest.last (hreason.imp_right fun h => hfront ▸ hsome.mp h)
      rwa [hlast] at hlast'
  · intro hall
    obtain ⟨hfirst, hbeginnings⟩ := (beginningsRemoved_cons ht).mp hall.beginnings
    rw [hkept] at hfirst
    refine ⟨hpre.mpr ⟨hall.finished, by simpa using hfirst⟩, ?_, fun hreason => ?_⟩
    · rw [h.map_behind ws]
      exact hbeginnings
    · rw [hlast]
      exact hall.last (hreason.imp_right fun h => hsome.mpr (hfront ▸ h))

/-- Without rounds no group may begin with a matching word. -/
theorem remaining_exhausted (ht : t < rounds exp (s.words g)) :
    Remaining exp clean s pre (g :: front) last n t ↔ (0 < n → clean last = false)
      ∧ (∀ k ∈ pre, begins exp (s.words k) = false)
      ∧ ∀ words ∈ (g :: front ++ [last]).map s.words, begins exp words = false := by
  have hbeginnings := @beginningsRemoved_of_lt exp t _ ((front ++ [last]).map s.words) ht
  constructor
  · intro hall
    exact ⟨fun h => (hall.last (Or.inl h)).1, hall.finished, hbeginnings.mp hall.beginnings⟩
  · rintro ⟨hclean, hpre, hnone⟩
    refine ⟨hpre, hbeginnings.mpr hnone, ?_⟩
    rintro (hpos | hsome)
    · exact ⟨hclean hpos, hnone _ (by simp)⟩
    · exact absurd hsome (not_someRemoved ht)

/-- Only the last group is left. -/
theorem ends_nil_iff (h : Arranged exp clean s pre [] last n) :
    Ends exp clean (pre ++ [last]) (deleteRounds exp t s) ↔ Remaining exp clean s pre [] last n t := by
  cases n with
  | zero =>
      rw [ends_last h.reaches_last (h.clean last (by simp))]
      constructor
      · rintro ⟨hpre, hbeginnings⟩
        refine ⟨hpre, hbeginnings, ?_⟩
        rintro (hzero | hsome)
        · omega
        · exact absurd hsome not_someRemoved_nil
      · exact fun hall => ⟨hall.finished, hall.beginnings⟩
  | succ n =>
      rw [ends_copies h.reaches_last]
      constructor
      · rintro ⟨hclean, hpre, hfirst⟩
        refine ⟨hpre, beginningsRemoved_singleton.mpr fun hyes => ?_, fun _ => ⟨hclean, hfirst⟩⟩
        rw [hfirst] at hyes
        cases hyes
      · intro hall
        have hlast := hall.last (Or.inl (Nat.succ_pos n))
        exact ⟨hlast.1, hall.finished, hlast.2⟩

/-- The groups before the last one are gone through one after the other. -/
theorem ends_iff (h : Arranged exp clean s pre front last n) (t : Nat) :
    Ends exp clean (pre ++ front ++ [last]) (deleteRounds exp t s)
      ↔ Remaining exp clean s pre front last n t := by
  induction front generalizing s pre n t with
  | nil =>
      rw [List.append_nil]
      exact ends_nil_iff h
  | cons g front ih =>
      by_cases ht : rounds exp (s.words g) ≤ t
      · cases hremoved : isRemoved exp (s.words g) with
        | true =>
            obtain ⟨ws, hrun⟩ := h.reaches.rounds_removed hremoved ht
            have hdirty : clean g = false := by
              rw [h.clean g (by simp), isClean_of_isRemoved hremoved]
            have hends : ∀ s', Ends exp clean (pre ++ g :: front ++ [last]) s'
                ↔ Ends exp clean (pre ++ front ++ [last]) s' := by
              intro s'
              simp [Ends, hdirty]
            rw [Groups.withWords_self] at hrun
            rw [hends, hrun, ih (h.removed ws), remaining_removed h hremoved ht]
        | false =>
            have hrun := h.reaches.rounds_kept hremoved ht
            rw [Groups.withWords_self] at hrun
            rw [hrun, List.append_cons pre g front, ih (h.kept (isFinished_filter _)),
              remaining_kept h hremoved ht (begins_filter hremoved)]
      · have hlt : t < rounds exp (s.words g) := by omega
        obtain ⟨ws, hhead, hrun⟩ := h.reaches.rounds_exhausted hlt
        rw [Groups.withWords_self] at hrun
        rw [hrun, ends_withWords (begins_congr hhead), ends_iff_of_list h.list,
          remaining_exhausted hlt]

/-! ## A call -/

theorem Groups.map_words_of (groups : List (List Word)) :
    (Groups.of groups).list.map (Groups.of groups).words = groups := by
  apply List.ext_getElem
  · simp [Groups.of]
  · intro i h h'
    simp [Groups.of, h']

theorem spared_iff_ends (h : exp ≠ []) (s : Groups) :
    Spared exp s (deleteInFirstIfSecond s exp) ↔
      Ends exp (fun g => isClean exp (s.words g)) s.list (deleteRounds exp 50 s) := by
  rw [deleteInFirstIfSecond, if_neg h]
  constructor
  · intro hspared
    exact ⟨hspared.kept, hspared.heads⟩
  · rintro ⟨hkept, hheads⟩
    exact ⟨hkept, fun g _ hclean => words_deleteRounds (isFinished_of_isClean hclean), hheads⟩

/-- A deletion spares the other groups exactly under the condition on the groups. -/
theorem deletion_spares_iff (exp : Str) (groups : List (List Word)) :
    Spared exp (Groups.of groups) (deleteInFirstIfSecond (Groups.of groups) exp)
      ↔ Spares exp groups := by
  have hwords := Groups.map_words_of groups
  unfold Spares
  by_cases hexp : exp = []
  · rw [deleteInFirstIfSecond, if_pos hexp, if_pos hexp]
    have hheads : (∀ ws ∈ groups, begins exp ws = false) ↔
        ∀ g ∈ (Groups.of groups).list, begins exp ((Groups.of groups).words g) = false := by
      conv_lhs => rw [← hwords]
      exact List.forall_mem_map
    rw [hheads]
    exact ⟨fun h => h.heads, fun h => ⟨rfl, fun _ _ _ => rfl, h⟩⟩
  · rw [spared_iff_ends hexp, if_neg hexp]
    rcases List.eq_nil_or_concat' groups with rfl | ⟨gs, l, rfl⟩
    · rw [deleteRounds_of_finished (fun g hg => by cases hg)]
      refine iff_of_true ⟨rfl, fun g hg => by cases hg⟩ ⟨beginningsRemoved_nil, ?_⟩
      intro front last heq
      simp at heq
    · generalize hs : Groups.of (gs ++ [l]) = s at hwords ⊢
      have hlist : s.list = List.range gs.length ++ [gs.length] := by
        rw [← hs, Groups.of]
        simp [List.range_succ]
      have hnodup : ([] ++ List.range gs.length ++ [gs.length]).Nodup := by
        rw [List.nil_append, ← List.range_succ]
        exact List.nodup_range
      have harranged : Arranged exp (fun g => isClean exp (s.words g)) s [] (List.range gs.length)
          gs.length 0 :=
        ⟨hlist, hnodup, fun g hg => (by cases hg), fun g _ => rfl⟩
      have hsplit := hwords
      rw [hlist, List.map_append, List.map_singleton] at hsplit
      obtain ⟨hfront, hlast⟩ := List.append_inj' hsplit rfl
      have hl : s.words gs.length = l := List.singleton_inj.mp hlast
      have hiff := ends_iff harranged 50
      rw [List.nil_append, ← hlist] at hiff
      rw [hiff]
      constructor
      · intro hrest
        have hbeginnings := hrest.beginnings
        rw [← hlist, hwords] at hbeginnings
        refine ⟨hbeginnings, fun front last heq hsome => ?_⟩
        obtain ⟨hgs, hsingle⟩ := List.append_inj' heq rfl
        have hlast' := hrest.last (Or.inr (by rw [hfront, hgs]; exact hsome))
        rwa [hl, List.singleton_inj.mp hsingle] at hlast'
      · rintro ⟨hbeginnings, hlast⟩
        refine ⟨fun g hg => (by cases hg), by rwa [← hlist, hwords], ?_⟩
        rintro (hzero | hsome)
        · omega
        · simp only [hl]
          exact hlast gs l rfl (hfront ▸ hsome)

/-- The first group is deleted, and the last one is there twice afterwards. -/
theorem baum_not_spared : ¬ Spared "haus".toList
    (Groups.of [[⟨"haus".toList⟩], [⟨"hund".toList⟩], [⟨"baum".toList⟩]])
    (deleteInFirstIfSecond
      (Groups.of [[⟨"haus".toList⟩], [⟨"hund".toList⟩], [⟨"baum".toList⟩]]) "haus".toList) := by
  intro hspared
  exact absurd hspared.kept (by decide)

end Freehal.Universal
