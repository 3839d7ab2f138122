import Freehal.Lib.Lists
import Freehal.Boinc.App
import Mathlib.Data.List.TakeWhile

/-!
# Stops and restarts

When the output after any number of stops is the output of a process that is never stopped.
-/

namespace Freehal.Boinc

open Grammar (Entity)
open Lib (decimal signed run)

/-! ## Reading the checkpoint -/

theorem not_isSpace_of_isDigit {c : Char} (h : c.isDigit) :
    c ∉ [' ', '\t', '\n', Char.ofNat 11, Char.ofNat 12, '\r'] := by
  intro hc
  simp only [List.mem_cons, List.not_mem_nil, or_false] at hc
  rcases hc with rfl | rfl | rfl | rfl | rfl | rfl <;> revert h <;> decide

theorem scanNumber_decimal (n : Nat) : scanNumber (decimal n) = some (n : Int) := by
  obtain ⟨c, cs, hd⟩ := List.exists_cons_of_ne_nil (Lib.decimal_ne_nil n)
  have hall : ∀ d ∈ c :: cs, d.isDigit := fun d h => Lib.isDigit_of_mem_decimal (hd ▸ h)
  have hc := hall c (by simp)
  have htake : (c :: cs).takeWhile Char.isDigit = c :: cs := List.takeWhile_eq_self_iff.mpr hall
  have hvalue : Nat.ofDigitChars 10 (c :: cs) 0 = n := hd ▸ Lib.ofDigitChars_decimal n
  have hminus : c ≠ '-' := by rintro rfl; revert hc; decide
  have hplus : c ≠ '+' := by rintro rfl; revert hc; decide
  rw [hd, scanNumber, List.dropWhile_cons_of_neg (by simpa using not_isSpace_of_isDigit hc)]
  split
  · rename_i h; exact absurd (List.cons.inj h).1 hminus
  · rename_i h; exact absurd (List.cons.inj h).1 hplus
  · simp only [htake, List.cons_ne_nil, if_false, hvalue, Int.one_mul]

theorem scanNumber_signed (n : Nat) : scanNumber (signed n) = some (n : Int) := by
  have h : signed n = decimal n := by simp [signed]
  rw [h, scanNumber_decimal]

/-! ## What the steps write -/

/-- The text that the steps append to the output. -/
def written (steps : List FileStep) : Str :=
  steps.flatMap fun step =>
    match step with
    | .append text => text
    | _ => []

/-- The last step that writes to a file appends to the output. -/
def unsaved (steps : List FileStep) : Bool :=
  steps.foldl (fun before step =>
    match step with
    | .append _ => true
    | .closeCheckpoint _ => false
    | _ => before) false

variable {d : Disk} {steps taken rest : List FileStep} {u v k : Nat} {n : Int}

/-- All steps append to the output. -/
def Appends (steps : List FileStep) : Prop := ∀ step ∈ steps, ∃ text, step = .append text

theorem written_append (a b : List FileStep) : written (a ++ b) = written a ++ written b := by
  simp [written]

theorem Appends.run (h : Appends steps) :
    run FileStep.apply d steps = { d with out := d.out ++ written steps } := by
  induction steps generalizing d with
  | nil => simp [written]
  | cons step steps ih =>
      obtain ⟨text, rfl⟩ := h step (by simp)
      rw [Lib.run_cons, ih fun s hs => h s (by simp [hs])]
      simp [FileStep.apply, written]

/-- Steps that append leave the output unsaved, unless there are none. -/
theorem Appends.eq_nil (h : Appends steps) (hu : unsaved steps = false) : steps = [] := by
  rcases List.eq_nil_or_concat steps with rfl | ⟨init, step, rfl⟩
  · rfl
  · obtain ⟨text, rfl⟩ := h step (by simp)
    simp [unsaved] at hu

theorem Appends.of_prefix (h : Appends steps) (ht : taken <+: steps) : Appends taken :=
  fun step hs => h step (ht.subset hs)

/-- Only what comes after a checkpoint matters. -/
theorem unsaved_closeCheckpoint (a b : List FileStep) (text : Str) :
    unsaved (a ++ .closeCheckpoint text :: b) = unsaved b := by
  simp [unsaved]

variable {revision : Str} {parse : Str → List Parsed} {input line : Str} {lines : List Str}

theorem appends_seconds : Appends seconds := by
  intro step hs
  obtain ⟨h, -, rfl⟩ := List.mem_map.mp hs
  exact ⟨_, rfl⟩

theorem appends_writeSentences (ss : List Parsed) (clause : Nat) :
    Appends (writeSentences revision line n ss clause u).1 := by
  induction ss generalizing clause u with
  | nil => intro step hs; cases hs
  | cons s ss ih =>
      intro step hs
      simp only [writeSentences, List.cons_append, List.nil_append, List.mem_cons] at hs
      rcases hs with rfl | rfl | rfl | rfl | hs
      · exact ⟨_, rfl⟩
      · exact ⟨_, rfl⟩
      · exact ⟨_, rfl⟩
      · exact ⟨_, rfl⟩
      · exact ih _ _ hs

theorem appends_boincParse : Appends (boincParse revision parse line n u).1 :=
  appends_writeSentences _ _

/-! ## The numbers in the graphs -/

/-- No graph of this line has a node. -/
def NoNodes (parse : Str → List Parsed) (line : Str) : Prop := ∀ s ∈ parse line, s.headD [] = []

theorem printParsed_of_noNodes {s : Parsed} (h : s.headD [] = []) :
    ∃ graph, ∀ u, printParsed s u = (graph, u) := by
  refine ⟨"digraph parsed \x7b\n".toList ++ [] ++ "\x7d\n".toList, fun u => ?_⟩
  unfold printParsed
  rw [h, printAll]

theorem writeSentences_of_noNodes (revision line : Str) (n : Int) (u v : Nat) {ss : List Parsed}
    (h : ∀ s ∈ ss, s.headD [] = []) (clause : Nat) : (writeSentences revision line n ss clause u).1
        = (writeSentences revision line n ss clause v).1 ∧
      (writeSentences revision line n ss clause u).2 = u := by
  induction ss generalizing clause with
  | nil => exact ⟨rfl, rfl⟩
  | cons s ss ih =>
      obtain ⟨graph, hs⟩ := printParsed_of_noNodes (h s (by simp))
      obtain ⟨h1, h2⟩ := ih (fun t ht => h t (by simp [ht])) (clause + 1)
      refine ⟨?_, ?_⟩
      · simp only [writeSentences, hs, h1]
      · simp only [writeSentences, hs, h2]

/-- Without nodes the numbers do not matter. -/
theorem mainLoop_of_noNodes (h : ∀ line ∈ lines, NoNodes parse line) :
    mainLoop revision parse lines n u = mainLoop revision parse lines n v := by
  induction lines generalizing n u v with
  | nil => rfl
  | cons line lines ih =>
      have hl := h line (by simp)
      obtain ⟨h1, h2⟩ := writeSentences_of_noNodes revision line (n + 1) u v hl 1
      obtain ⟨-, h3⟩ := writeSentences_of_noNodes revision line (n + 1) v u hl 1
      simp only [mainLoop, boincParse, h1, h2, h3]
      rw [ih fun l hl => h l (by simp [hl])]

/-- The counter after the lines. -/
def counterAfter (revision : Str) (parse : Str → List Parsed) : List Str → Int → Nat → Nat
  | [], _, u => u
  | line :: lines, n, u =>
      counterAfter revision parse lines (n + 1) (boincParse revision parse line (n + 1) u).2

theorem mainLoop_append (a b : List Str) :
    mainLoop revision parse (a ++ b) n u = mainLoop revision parse a n u
      ++ mainLoop revision parse b (n + a.length) (counterAfter revision parse a n u) := by
  induction a generalizing n u with
  | nil => simp [mainLoop, counterAfter]
  | cons line a ih =>
      have hn : n + 1 + (a.length : Int) = n + ((line :: a).length : Nat) := by
        simp only [List.length_cons]; omega
      simp only [List.cons_append, mainLoop, counterAfter, ih, List.append_assoc, hn]

theorem counterAfter_of_noNodes (h : ∀ line ∈ lines, NoNodes parse line) :
    counterAfter revision parse lines n u = u := by
  induction lines generalizing n u with
  | nil => rfl
  | cons line lines ih =>
      obtain ⟨-, h2⟩ := writeSentences_of_noNodes revision line (n + 1) u u (h line (by simp)) 1
      rw [counterAfter, boincParse, h2]
      exact ih fun l hl => h l (by simp [hl])

/-! ## What a process leaves -/

theorem run_mainLoop : (run FileStep.apply d (mainLoop revision parse lines n u)).out
    = d.out ++ written (mainLoop revision parse lines n u) := by
  induction lines generalizing n u d with
  | nil => simp [mainLoop, written]
  | cons line lines ih =>
      simp only [mainLoop, List.append_assoc, Lib.run_append, appends_boincParse.run, ih]
      simp [FileStep.apply, written]

/-- A process that stopped with its output saved has an empty checkpoint, or has done nothing since
it opened its files, or has written and counted some of the lines. -/
theorem stopped_cases (ht : taken <+: mainLoop revision parse lines n u ++ seconds)
    (hu : unsaved taken = false) :
    (run FileStep.apply d taken).checkpoint = some [] ∨ run FileStep.apply d taken = d ∨
      ∃ j, j ≤ lines.length ∧ run FileStep.apply d taken =
        ⟨d.out ++ written (mainLoop revision parse (lines.take j) n u), some (signed (n + j))⟩ := by
  induction lines generalizing n u d taken with
  | nil =>
      obtain rfl := (appends_seconds.of_prefix ht).eq_nil hu
      exact Or.inr (Or.inl rfl)
  | cons line lines ih =>
      rw [mainLoop, List.append_assoc, List.append_assoc] at ht
      rcases Lib.prefix_append_cases ht with hs | ⟨t, rfl, ht'⟩
      · obtain rfl := (appends_boincParse.of_prefix hs).eq_nil hu
        exact Or.inr (Or.inl rfl)
      · clear ht
        rcases t with _ | ⟨s, _ | ⟨s', t⟩⟩
        · rw [List.append_nil] at hu ⊢
          rw [appends_boincParse.eq_nil hu]
          exact Or.inr (Or.inl rfl)
        · obtain ⟨rfl, -⟩ := List.cons_prefix_cons.mp ht'
          refine Or.inl ?_
          rw [Lib.run_append]
          rfl
        · obtain ⟨rfl, ht₁⟩ := List.cons_prefix_cons.mp ht'
          obtain ⟨rfl, ht₂⟩ := List.cons_prefix_cons.mp ht₁
          rw [List.append_cons, unsaved_closeCheckpoint] at hu
          rw [List.append_cons, Lib.run_append, Lib.run_append, appends_boincParse.run]
          simp only [Lib.run_cons, Lib.run_nil, FileStep.apply]
          have hwritten : ∀ j, written (mainLoop revision parse ((line :: lines).take (j + 1)) n u)
              = written (boincParse revision parse line (n + 1) u).1
                ++ written (mainLoop revision parse (lines.take j) (n + 1)
                  (boincParse revision parse line (n + 1) u).2) := by
            intro j
            simp [mainLoop, written]
          rcases ih ht₂ hu with h | h | ⟨j, hj, h⟩
          · exact Or.inl h
          · refine Or.inr (Or.inr ⟨1, by simp, ?_⟩)
            rw [h, hwritten 0]
            simp [mainLoop, written]
          · refine Or.inr (Or.inr ⟨j + 1, by simpa using hj, ?_⟩)
            rw [h, hwritten j]
            simp [Int.add_comm, Int.add_left_comm]

/-! ## Runs -/

variable (revision parse input)

/-- The process stops with an empty or no checkpoint, or with its output saved, where the lines
counted or the other ones have no nodes. -/
def StopsClean (d : Disk) (k : Nat) : Prop :=
  (interrupt revision parse input d k).readCheckpoint = none ∨
    unsaved ((mainSteps revision parse input d).take k) = false ∧
      ∀ n : Nat, (interrupt revision parse input d k).readCheckpoint = some (n : Int) →
        (∀ line ∈ (getLines input).take n, NoNodes parse line) ∨
          ∀ line ∈ (getLines input).drop n, NoNodes parse line

/-- The files that a process goes on from as if it had not been stopped. -/
def Resumable (d : Disk) : Prop :=
  d.readCheckpoint = none ∨ ∃ n : Nat, n ≤ (getLines input).length ∧
    d = ⟨written (mainLoop revision parse ((getLines input).take n) 0 1), some (signed n)⟩ ∧
    ((∀ line ∈ (getLines input).take n, NoNodes parse line) ∨
      ∀ line ∈ (getLines input).drop n, NoNodes parse line)

variable {revision parse input}

/-- What is written from line `n` on continues what was written before. -/
theorem written_resume (revision : Str)
    (h : (∀ line ∈ (getLines input).take k, NoNodes parse line) ∨
      ∀ line ∈ (getLines input).drop k, NoNodes parse line) {a b : List Str}
    (ha : a = (getLines input).take k) (hb : b <+: (getLines input).drop k) :
    written (mainLoop revision parse a 0 1)
      ++ written (mainLoop revision parse b a.length 1)
      = written (mainLoop revision parse (a ++ b) 0 1) := by
  subst ha
  rw [mainLoop_append, written_append, Int.zero_add]
  rcases h with h | h
  · rw [counterAfter_of_noNodes h]
  · rw [mainLoop_of_noNodes fun line hl => h line (hb.subset hl)]

theorem Resumable.interrupt (h : Resumable revision parse input d)
    (hk : StopsClean revision parse input d k) :
    Resumable revision parse input (interrupt revision parse input d k) := by
  rcases hk with hk | ⟨hu, hn⟩
  · exact Or.inl hk
  by_cases hnone : (Boinc.interrupt revision parse input d k).readCheckpoint = none
  · exact Or.inl hnone
  have hempty : (Boinc.interrupt revision parse input d k).checkpoint ≠ some [] := by
    intro he
    exact hnone (by rw [Disk.readCheckpoint, he]; rfl)
  have htake : (mainSteps revision parse input d).take k <+: mainSteps revision parse input d :=
    List.take_prefix _ _
  have hstop : Boinc.interrupt revision parse input d k
      = run FileStep.apply d ((mainSteps revision parse input d).take k) := rfl
  -- The number of lines that the checkpoint counts, and why the rest is written as it would be.
  have hresume : ∀ n : Nat, n ≤ (getLines input).length →
      Boinc.interrupt revision parse input d k
        = ⟨written (mainLoop revision parse ((getLines input).take n) 0 1), some (signed n)⟩ →
      Resumable revision parse input (Boinc.interrupt revision parse input d k) := by
    intro n hle he
    refine Or.inr ⟨n, hle, he, hn n ?_⟩
    rw [he]
    exact scanNumber_signed n
  generalize htaken : (mainSteps revision parse input d).take k = taken at *
  rcases h with hread | ⟨n, hle, rfl, hnodes⟩
  · -- The output is opened anew.
    simp only [mainSteps, hread, Option.isSome_none, Bool.false_eq_true, if_false, Option.getD_none,
      Int.toNat_zero, List.drop_zero, List.append_assoc] at htake
    cases taken with
    | nil =>
        rw [hstop] at hnone
        exact absurd hread hnone
    | cons step taken =>
        obtain ⟨rfl, ht⟩ := List.cons_prefix_cons.mp htake
        have hu' : unsaved taken = false := hu
        rw [hstop, Lib.run_cons] at hempty hnone hresume ⊢
        rcases stopped_cases (d := FileStep.apply d .openOutput) ht hu' with h | h | ⟨j, hj, h⟩
        · exact absurd h hempty
        · rw [h] at hnone
          exact absurd hread hnone
        · refine hresume j hj ?_
          rw [h, Int.zero_add]
          rfl
  · have hread : Disk.readCheckpoint ⟨written (mainLoop revision parse
        ((getLines input).take n) 0 1), some (signed n)⟩ = some (n : Int) := scanNumber_signed n
    simp only [mainSteps, hread, Option.isSome_some, if_true, Option.getD_some, Int.toNat_natCast,
      List.nil_append] at htake
    rw [hstop] at hempty hnone hresume ⊢
    rcases stopped_cases (d := ⟨written (mainLoop revision parse ((getLines input).take n) 0 1),
      some (signed n)⟩) htake hu with h | h | ⟨j, hj, h⟩
    · exact absurd h hempty
    · exact hresume n hle h
    · refine hresume (n + j) (by rw [List.length_drop] at hj; omega) ?_
      have hlen : ((getLines input).take n).length = n := by rw [List.length_take]; omega
      have hw := written_resume revision hnodes rfl
        (List.take_prefix j ((getLines input).drop n))
      rw [hlen] at hw
      rw [h, hw, List.take_add]
      rfl

/-- A process that goes on from such files finishes as one that starts without files. -/
theorem Resumable.finish (h : Resumable revision parse input d) :
    (finish revision parse input d).out = (finish revision parse input noFiles).out := by
  have hall : (Boinc.finish revision parse input noFiles).out
      = written (mainLoop revision parse (getLines input) 0 1) ++ written seconds := by
    simp [Boinc.finish, mainSteps, noFiles, Disk.readCheckpoint, Lib.run_append, run_mainLoop,
      appends_seconds.run, FileStep.apply]
  rw [hall]
  rcases h with hread | ⟨n, hle, rfl, hnodes⟩
  · simp [Boinc.finish, mainSteps, hread, Lib.run_append, run_mainLoop, appends_seconds.run,
      FileStep.apply]
  · have hread : Disk.readCheckpoint ⟨written (mainLoop revision parse
        ((getLines input).take n) 0 1), some (signed n)⟩ = some (n : Int) := scanNumber_signed n
    have hlen : ((getLines input).take n).length = n := by rw [List.length_take]; omega
    have hw := written_resume revision hnodes rfl List.prefix_rfl
    rw [hlen, List.take_append_drop] at hw
    simp only [Boinc.finish, mainSteps, hread, Option.isSome_some, if_true, Option.getD_some,
      Int.toNat_natCast, List.nil_append, Lib.run_append, run_mainLoop, appends_seconds.run, hw]

/-- When every stop is clean, the output is that of a process that is never stopped. -/
theorem output_after_stops (revision : Str) (parse : Str → List Parsed) (input : Str)
    (ks : List Nat) (h : Lib.Meets (interrupt revision parse input)
      (StopsClean revision parse input) noFiles ks) :
    (finish revision parse input (run (interrupt revision parse input) noFiles ks)).out
      = (finish revision parse input noFiles).out := by
  apply Resumable.finish
  refine h.induction (I := Resumable revision parse input) (Or.inl rfl) ?_
  intro d k hd hk
  exact hd.interrupt hk

/-! ## A stop between output and checkpoint -/

/-- Each line has one sentence, without a node. -/
def oneSentence : Str → List Parsed := fun _ => [[]]

/-- The process stops before the first checkpoint, then with the second line counted. -/
theorem output_after_two_stops : (finish [] oneSentence "a\nb\n".toList
    (run (interrupt [] oneSentence "a\nb\n".toList) noFiles [3, 13])).out
      = (finish [] oneSentence "a\nb\n".toList noFiles).out := by
  apply output_after_stops
  have hnodes : ∀ line, NoNodes oneSentence line := by
    intro line s hs
    rw [List.mem_singleton.mp hs]
    rfl
  refine ⟨Or.inl (by decide +kernel), Or.inr ⟨by decide +kernel, ?_⟩, trivial⟩
  intro n _
  exact Or.inl fun line _ => hnodes line

/-- The second line is written and not counted when the process stops, and is written again. -/
theorem output_twice : ¬ ∀ (revision : Str) (parse : Str → List Parsed) (input : Str)
    (ks : List Nat),
    (finish revision parse input (run (interrupt revision parse input) noFiles ks)).out =
      (finish revision parse input noFiles).out := by
  intro h
  have := h [] oneSentence "a\nb\n".toList [11]
  revert this
  decide +kernel

end Freehal.Boinc
