import Freehal.Index.Lemmas.Run

/-!
# Main theorems on the fact index

When every added fact can be found, and when nothing else can.
-/

namespace Freehal.Index
open Lib

variable {σ α : Type} (kv : KeyValueDatabase σ α) (F : Facts α) (ord : HashOrder) (memoryLimit : Nat)

/-! ## Completeness -/

/-- Every fact of the files is returned for each of its words. -/
def Complete (ix : FactIndex σ α) (files : List (Str × List α)) : Prop :=
  ∀ run ∈ files, ∀ x ∈ run.2, ∀ w ∈ F.getWords x, F.contains (FactIndex.findFacts kv F ix [w]) x

/-- Every fact of the files has an equal under each of its keys among the facts that are kept. -/
def Covered (files : List (Str × List α)) : Prop :=
  ∀ run ∈ files, ∀ x ∈ run.2, ∀ key ∈ F.keys x,
    ∃ run' ∈ files, F.Indexed (kept memoryLimit run'.2) key (F.hashCode x)

variable {kv F ord memoryLimit}

/-- A run over a file of which nothing was stored adds the facts that are kept. -/
theorem content_indexFile (hlim : 0 < memoryLimit) {ix ix' : FactIndex σ α} {run : Str × List α}
    (hr : FactIndex.indexFile kv F ord memoryLimit ix run = some ix')
    (hempty : ∀ key h, ¬ Stems kv F ix.factsCache run.1 key h) {key : Str} {h : Int} :
    (∃ name, Content kv F ix'.factsCache name key h)
      ↔ F.Indexed (kept memoryLimit run.2) key h ∨ ∃ name, Content kv F ix.factsCache name key h := by
  have hstems : Stems kv F ix'.factsCache run.1 key h ↔ _ := stems_indexFile hlim hr
  have hno : ¬ Stale kv F memoryLimit ix.factsCache run.1 run.2.length key h :=
    fun ⟨i, _, hi⟩ => hempty key h ⟨i, hi⟩
  have hframe : ∀ name, (∀ i, name ≠ dbname run.1 i) →
      (Content kv F ix'.factsCache name key h ↔ Content kv F ix.factsCache name key h) :=
    fun name hname => indexFile_frame hr hname
  constructor
  · rintro ⟨name, hname⟩
    by_cases hf : ∃ i, name = dbname run.1 i
    · obtain ⟨i, rfl⟩ := hf
      exact Or.inl ((hstems.mp ⟨i, hname⟩).resolve_right hno)
    · exact Or.inr ⟨name, (hframe name fun i hi => hf ⟨i, hi⟩).mp hname⟩
  · rintro (hkept | ⟨name, hname⟩)
    · obtain ⟨i, hi⟩ := hstems.mpr (Or.inl hkept)
      exact ⟨_, hi⟩
    · have hf : ∀ i, name ≠ dbname run.1 i := by
        rintro i rfl
        exact hempty key h ⟨i, hname⟩
      exact ⟨name, (hframe name hf).mpr hname⟩

theorem content_indexFiles (kv : KeyValueDatabase σ α) (F : Facts α) (ord : HashOrder)
    (hlim : 0 < memoryLimit) {files : List (Str × List α)}
    (hfiles : files.Pairwise (·.1 ≠ ·.1)) (ix : FactIndex σ α)
    (hempty : ∀ run ∈ files, ∀ key h, ¬ Stems kv F ix.factsCache run.1 key h) :
    ∃ ix', FactIndex.indexFiles kv F ord memoryLimit ix files = some ix' ∧ ∀ key h,
      ((∃ name, Content kv F ix'.factsCache name key h)
        ↔ (∃ name, Content kv F ix.factsCache name key h)
          ∨ ∃ run ∈ files, F.Indexed (kept memoryLimit run.2) key h) := by
  induction files generalizing ix with
  | nil => exact ⟨ix, rfl, by simp⟩
  | cons run files ih =>
      obtain ⟨hrun, hfiles⟩ := List.pairwise_cons.mp hfiles
      obtain ⟨s, hs⟩ := indexFile_total kv F ord memoryLimit ix run
      have hempty' : ∀ run' ∈ files, ∀ key h, ¬ Stems kv F s run'.1 key h := by
        rintro run' hrun' key h ⟨i, hi⟩
        refine hempty run' (by simp [hrun']) key h ⟨i, ?_⟩
        exact (indexFile_frame hs fun i' hn => hrun run' hrun' (dbname_injective hn).1.symm).mp hi
      obtain ⟨ix', hix', hcontent⟩ := ih hfiles ⟨none, s⟩ hempty'
      refine ⟨ix', by rw [FactIndex.indexFiles, List.foldlM_cons, hs]; exact hix', fun key h => ?_⟩
      rw [hcontent, content_indexFile hlim hs (hempty run (by simp))]
      simp only [List.mem_cons, exists_eq_or_imp]
      tauto

/-- After the files were indexed into empty databases, every fact is found for each of its words
exactly if every fact has an equal among the facts that are kept. -/
theorem findFacts_complete_iff (kv : KeyValueDatabase σ α) (F : Facts α) (ord : HashOrder) (hlim : 0 < memoryLimit) {s : σ} (hs : kv.Empty s)
    {files : List (Str × List α)} (hfiles : files.Pairwise (·.1 ≠ ·.1)) :
    ∃ ix, FactIndex.indexFiles kv F ord memoryLimit ⟨none, s⟩ files = some ix ∧
      (Complete kv F ix files ↔ Covered F memoryLimit files) := by
  have hempty : ∀ name key h, ¬ Content kv F s name key h := by
    rintro name key h ⟨x, hx, _⟩
    rw [hs name key] at hx
    cases hx
  obtain ⟨ix, hix, hcontent⟩ := content_indexFiles kv F ord hlim hfiles ⟨none, s⟩
    fun run _ key h ⟨i, hi⟩ => hempty _ key h hi
  refine ⟨ix, hix, ?_⟩
  have hfind : ∀ w x, F.contains (FactIndex.findFacts kv F ix [w]) x
      ↔ ∃ run ∈ files, F.Indexed (kept memoryLimit run.2) (getKey w) (F.hashCode x) := by
    intro w x
    rw [contains_findFacts]
    simp only [List.mem_singleton, exists_eq_left]
    rw [hcontent]
    exact or_iff_right fun ⟨name, hn⟩ => hempty name _ _ hn
  constructor
  · intro hc run hrun x hx key hkey
    obtain ⟨w, hw, rfl⟩ := List.mem_map.mp hkey
    exact (hfind w x).mp (hc run hrun x hx w hw)
  · intro hc run hrun x hx w hw
    exact (hfind w x).mpr (hc run hrun x hx (getKey w) (List.mem_map_of_mem hw))

/-- Facts that are numbers and have one word. -/
def numbers : Facts Nat := ⟨fun _ => ["number".toList], fun n => n⟩

/-- Three facts with a limit of 2: the last chunk is not full and nothing is lost. -/
theorem findFacts_complete_three :
    ∃ ix, FactIndex.indexFiles (Table.database Nat) numbers HashOrder.insertion 2 ⟨none, []⟩
        [("a.xml".toList, [1, 2, 3])] = some ix ∧
      Complete (Table.database Nat) numbers ix [("a.xml".toList, [1, 2, 3])] := by
  obtain ⟨ix, hix, hiff⟩ := findFacts_complete_iff (Table.database Nat) numbers HashOrder.insertion
    (show 0 < 2 by decide) (s := []) (fun _ _ => rfl)
    (List.pairwise_singleton _ ("a.xml".toList, [1, 2, 3]))
  refine ⟨ix, hix, hiff.mpr ?_⟩
  intro run hrun x hx key hkey
  exact ⟨run, hrun, x, by rw [List.mem_singleton.mp hrun] at hx ⊢; exact hx, hkey, rfl⟩

/-- Two facts with a limit of 2: the full chunk is overwritten at the end. -/
theorem findFacts_incomplete_two :
    ∃ ix, FactIndex.indexFiles (Table.database Nat) numbers HashOrder.insertion 2 ⟨none, []⟩
        [("a.xml".toList, [1, 2])] = some ix ∧
      ¬ Complete (Table.database Nat) numbers ix [("a.xml".toList, [1, 2])] := by
  refine ⟨⟨none, []⟩, rfl, fun hc => ?_⟩
  obtain ⟨y, hy, _⟩ := hc _ List.mem_cons_self 1 (by decide) "number".toList (by decide)
  exact nomatch (show y ∈ ([] : List Nat) from hy)

/-! ## Freshness -/

/-- The facts of the last run over a file. -/
def lastRun (runs : List (Str × List α)) (f : Str) : List α :=
  ((runs.reverse.find? (·.1 = f)).map (·.2)).getD []

variable (kv F memoryLimit)

/-- The facts that stem from a file are those of its last run. -/
def Fresh (s : σ) (last : Str → List α) : Prop :=
  ∀ f key h, Stems kv F s f key h ↔ F.Indexed (last f) key h

/-- What is stale is in this run too, and what is lost is kept or stale. -/
structure StepOk (s : σ) (run : Str × List α) : Prop where
  stale : ∀ key h, Stale kv F memoryLimit s run.1 run.2.length key h → F.Indexed run.2 key h
  lost : run.2.length % memoryLimit = 0 → ∀ key h, F.Indexed run.2 key h →
    F.Indexed (kept memoryLimit run.2) key h ∨ Stale kv F memoryLimit s run.1 run.2.length key h

variable {kv F memoryLimit}

theorem lastRun_append_self (runs : List (Str × List α)) (run : Str × List α) :
    lastRun (runs ++ [run]) run.1 = run.2 := by
  simp [lastRun]

theorem lastRun_append_of_ne {runs : List (Str × List α)} {run : Str × List α} {f : Str}
    (h : f ≠ run.1) : lastRun (runs ++ [run]) f = lastRun runs f := by
  have h' : ¬ run.1 = f := fun hc => h hc.symm
  simp [lastRun, h']

theorem indexFiles_append {ix : FactIndex σ α} {runs : List (Str × List α)} {run : Str × List α} :
    FactIndex.indexFiles kv F ord memoryLimit ix (runs ++ [run])
      = (FactIndex.indexFiles kv F ord memoryLimit ix runs).bind fun ix =>
          FactIndex.indexFile kv F ord memoryLimit ix run := by
  simp [FactIndex.indexFiles, List.foldlM_append]

/-- One run: the file is fresh afterwards exactly if the step is in order. -/
theorem stems_iff_stepOk (hlim : 0 < memoryLimit) {ix ix' : FactIndex σ α} {run : Str × List α}
    (hr : FactIndex.indexFile kv F ord memoryLimit ix run = some ix') :
    (∀ key h, Stems kv F ix'.factsCache run.1 key h ↔ F.Indexed run.2 key h)
      ↔ StepOk kv F memoryLimit ix.factsCache run := by
  have hstems : ∀ key h, Stems kv F ix'.factsCache run.1 key h ↔ _ :=
    fun key h => stems_indexFile hlim hr
  constructor
  · intro hf
    refine ⟨fun key h hst => ?_, fun _ key h hi => ?_⟩
    · exact (hf key h).mp ((hstems key h).mpr (Or.inr hst))
    · exact (hstems key h).mp ((hf key h).mpr hi)
  · rintro ⟨hstale, hlost⟩ key h
    rw [hstems]
    constructor
    · rintro (⟨x, hx, hrest⟩ | hst)
      · refine ⟨x, ?_, hrest⟩
        unfold kept at hx
        split at hx
        · exact List.mem_of_mem_take hx
        · exact hx
      · exact hstale key h hst
    · intro hi
      by_cases hmod : run.2.length % memoryLimit = 0
      · exact hlost hmod key h hi
      · exact Or.inl (by rw [kept, if_neg hmod]; exact hi)

theorem stems_frame {ix ix' : FactIndex σ α} {run : Str × List α}
    (hr : FactIndex.indexFile kv F ord memoryLimit ix run = some ix') {f : Str} (hf : f ≠ run.1)
    {key : Str} {h : Int} :
    Stems kv F ix'.factsCache f key h ↔ Stems kv F ix.factsCache f key h :=
  exists_congr fun _ => indexFile_frame hr fun _ hn => hf (dbname_injective hn).1

/-- Over every sequence of runs from empty databases: other files keep their facts, and every file
is fresh after every run exactly if every run starts in a state where its step is in order. -/
theorem index_runs_fresh_iff (kv : KeyValueDatabase σ α) (F : Facts α) (ord : HashOrder)
    (hlim : 0 < memoryLimit) {s : σ} (hs : kv.Empty s) (runs : List (Str × List α)) :
    (∀ (ix ix' : FactIndex σ α) (run : Str × List α),
      FactIndex.indexFile kv F ord memoryLimit ix run = some ix' → ∀ f, f ≠ run.1 → ∀ key h,
        (Stems kv F ix'.factsCache f key h ↔ Stems kv F ix.factsCache f key h)) ∧
    ((∀ p ix, p <+: runs → FactIndex.indexFiles kv F ord memoryLimit ⟨none, s⟩ p = some ix →
        Fresh kv F ix.factsCache (lastRun p)) ↔
      (∀ p run ix, p ++ [run] <+: runs →
        FactIndex.indexFiles kv F ord memoryLimit ⟨none, s⟩ p = some ix →
          StepOk kv F memoryLimit ix.factsCache run)) := by
  refine ⟨fun ix ix' run hr f hf key h => stems_frame hr hf, fun hfresh p run ix hp hix => ?_,
    fun hok p ix hp hix => ?_⟩
  · obtain ⟨s', hs'⟩ := indexFile_total kv F ord memoryLimit ix run
    refine (stems_iff_stepOk hlim hs').mp fun key h => ?_
    have := hfresh (p ++ [run]) ⟨none, s'⟩ hp (by rw [indexFiles_append, hix]; exact hs') run.1 key h
    rwa [lastRun_append_self] at this
  · induction p using List.reverseRecOn generalizing ix with
    | nil =>
        obtain rfl : (⟨none, s⟩ : FactIndex σ α) = ix := Option.some.inj hix
        intro f key h
        refine iff_of_false ?_ ?_
        · rintro ⟨i, x, hx, _⟩
          rw [hs] at hx
          cases hx
        · rintro ⟨x, hx, _⟩
          simp [lastRun] at hx
    | append_singleton p run ih =>
        rw [indexFiles_append, Option.bind_eq_some_iff] at hix
        obtain ⟨ix₀, h₀, hrun⟩ := hix
        have hfresh₀ := ih ix₀ ((List.prefix_append _ _).trans hp) h₀
        intro f key h
        by_cases hf : f = run.1
        · subst hf
          rw [lastRun_append_self]
          exact (stems_iff_stepOk hlim hrun).mpr (hok p run ix₀ hp h₀) key h
        · rw [lastRun_append_of_ne hf, stems_frame hrun hf]
          exact hfresh₀ f key h

/-- The first run over a file is in order if its last chunk is not full. -/
theorem StepOk.first {s : σ} (hs : kv.Empty s) {run : Str × List α}
    (hmod : run.2.length % memoryLimit ≠ 0) : StepOk kv F memoryLimit s run := by
  refine ⟨?_, fun h => absurd h hmod⟩
  rintro key h ⟨i, _, x, hx, _⟩
  rw [hs] at hx
  cases hx

/-- Three facts with a limit of 2 are fresh after their run. -/
theorem index_runs_fresh_three :
    ∃ ix, FactIndex.indexFiles (Table.database Nat) numbers HashOrder.insertion 2 ⟨none, []⟩
        [("a.xml".toList, [1, 2, 3])] = some ix ∧
      Fresh (Table.database Nat) numbers ix.factsCache (lastRun [("a.xml".toList, [1, 2, 3])]) := by
  have hempty : (Table.database Nat).Empty [] := fun _ _ => rfl
  obtain ⟨s, hs⟩ := indexFile_total (Table.database Nat) numbers HashOrder.insertion 2 ⟨none, []⟩
    ("a.xml".toList, [1, 2, 3])
  have hruns := (index_runs_fresh_iff (Table.database Nat) numbers HashOrder.insertion
    (show 0 < 2 by decide) hempty [("a.xml".toList, [1, 2, 3])]).2.mpr ?_
  · exact ⟨⟨none, s⟩, hs, hruns _ _ (List.prefix_refl _) hs⟩
  · intro p run ix hp hix
    have hlen : p = [] := by
      have := hp.length_le
      simpa using this
    subst hlen
    obtain rfl : run = ("a.xml".toList, [1, 2, 3]) := by simpa using hp
    obtain rfl : (⟨none, []⟩ : FactIndex (Table Nat) Nat) = ix := Option.some.inj hix
    exact StepOk.first hempty (by decide)

/-- Three facts and then one, with a limit of 2: the second database of the file is stale. -/
theorem index_runs_stale :
    ∃ ix, FactIndex.indexFiles (Table.database Nat) numbers HashOrder.insertion 2 ⟨none, []⟩
        [("a.xml".toList, [1, 2, 3]), ("a.xml".toList, [4])] = some ix ∧
      ¬ Fresh (Table.database Nat) numbers ix.factsCache
        (lastRun [("a.xml".toList, [1, 2, 3]), ("a.xml".toList, [4])]) := by
  refine ⟨⟨none, [("a.xml-2".toList, "numb".toList, [3]), ("a.xml-1".toList, "numb".toList, [4])]⟩,
    by rfl, fun hf => ?_⟩
  obtain ⟨x, hx, _, h⟩ := (hf "a.xml".toList "numb".toList 3).mp ⟨2, 3, by decide +kernel, rfl⟩
  obtain rfl : x = 4 := by simpa [lastRun] using hx
  cases h

end Freehal.Index
