import Freehal.Index.StandardDatabase
import Freehal.Lib.Run

/-!
# How fresh the caches are

What the metadata says of a base name is true of the caches: they were built from a file of that
name and length. This survives restarts, where the metadata is read back from its text.
-/

namespace Freehal.Index

open Lib (HashMap HashOrder)

/-! ## Reading the metadata back -/

theorem readLinesFrom_line {line acc : Str} (h : Plain line) (text : Str) :
    readLinesFrom false acc (line ++ '\n' :: text) = (acc ++ line) :: readLines text := by
  induction line generalizing acc with
  | nil => simp [readLinesFrom, readLines]
  | cons c line ih =>
      have hc : ¬ c = '\n' ∧ ¬ c = '\r' := by
        refine ⟨?_, ?_⟩
        · rintro rfl
          exact h.1 (by simp)
        · rintro rfl
          exact h.2 (by simp)
      have hline : Plain line :=
        ⟨fun hm => h.1 (by simp [hm]), fun hm => h.2 (by simp [hm])⟩
      rw [List.cons_append, readLinesFrom, if_neg hc.1, if_neg hc.2, ih hline]
      simp

theorem signAndDigits_signed (i : Int) :
    signAndDigits (Lib.signed i) = (decide (i < 0), Lib.decimal i.natAbs) := by
  have hdigit : ∀ c, c.isDigit = false → c ∉ Lib.decimal i.natAbs :=
    fun c hc => Lib.not_mem_decimal hc
  unfold Lib.signed
  by_cases hi : i < 0
  · simp [hi, signAndDigits]
  · rw [if_neg hi, signAndDigits.eq_def]
    split
    · case h_1 digits heq => exact absurd (by simp [heq]) (hdigit '-' rfl)
    · case h_2 digits heq => exact absurd (by simp [heq]) (hdigit '+' rfl)
    · simp [hi]

theorem integerValueOf_signed {i j : Int} (h : integerValueOf (Lib.signed i) = some j) :
    j = i := by
  rw [integerValueOf, signAndDigits_signed] at h
  simp only [Lib.ofDigitChars_decimal, Option.ite_none_right_eq_some, Option.some.injEq,
    decide_eq_true_eq] at h
  have := h.2
  split at this <;> omega

theorem not_mem_signed {i : Int} {c : Char} (hc : c.isDigit = false) (hd : c ≠ '-') :
    c ∉ Lib.signed i := by
  have := Lib.not_mem_decimal (n := i.natAbs) hc
  unfold Lib.signed
  split <;> simp [this, hd]

/-- A line is read back as it was written, or not at all. -/
theorem readEntry_line {e e' : Str × Int}
    (h : readEntry (e.1 ++ ':' :: Lib.signed e.2) = some e') : e' = e := by
  have hcolon : ':' ∉ Lib.signed e.2 := not_mem_signed rfl (by decide)
  have hlast : ((e.1.splitOn ':' ++ [Lib.signed e.2]).reverse.dropWhile (· = [])).reverse
      = e.1.splitOn ':' ++ [Lib.signed e.2] := by
    simp [Lib.signed_ne_nil]
  rw [readEntry, splitColon, if_pos (by simp), List.splitOn_append_cons_self,
    List.splitOn_eq_singleton hcolon, hlast] at h
  split at h
  · case h_1 name length heq =>
      have heq : e.1.splitOn ':' ++ [Lib.signed e.2] = [name] ++ [length] := heq
      obtain ⟨hname, hlength⟩ := List.append_inj' heq rfl
      have hname : name = e.1 := by
        have : [':'].intercalate (e.1.splitOn ':') = e.1 := List.intercalate_splitOn ':'
        rw [hname] at this
        simpa using this
      obtain ⟨j, hj, rfl⟩ := Option.map_eq_some_iff.mp h
      rw [← (List.cons.inj hlength).1] at hj
      rw [integerValueOf_signed hj, hname]
  · cases h

theorem Plain.line {e : Str × Int} (h : Plain e.1) : Plain (e.1 ++ ':' :: Lib.signed e.2) := by
  have hlf : '\n' ∉ Lib.signed e.2 := not_mem_signed rfl (by decide)
  have hcr : '\r' ∉ Lib.signed e.2 := not_mem_signed rfl (by decide)
  exact ⟨by simp [h.1, hlf], by simp [h.2, hcr]⟩

theorem readLines_entries {es : List (Str × Int)} (h : ∀ e ∈ es, Plain e.1) :
    readLines (es.flatMap writeEntry) = es.map (fun e => e.1 ++ ':' :: Lib.signed e.2) ++ [[]] := by
  induction es with
  | nil => rfl
  | cons e es ih =>
      have hrest := ih fun e' he' => h e' (by simp [he'])
      have hline := @readLinesFrom_line _ [] (h e (by simp)).line (es.flatMap writeEntry)
      rw [hrest] at hline
      simpa [readLines, writeEntry] using hline

/-- Nothing is read that was not written. -/
theorem mem_readMetadata {es : List (Str × Int)} (h : ∀ e ∈ es, Plain e.1) {e : Str × Int}
    (he : e ∈ readMetadata (es.flatMap writeEntry)) : e ∈ es := by
  rcases HashMap.mem_putAll he with he | he
  · cases he
  · obtain ⟨line, hline, hread⟩ := List.mem_filterMap.mp he
    rw [readLines_entries h] at hline
    rcases List.mem_append.mp hline with hline | hline
    · obtain ⟨e', he', rfl⟩ := List.mem_map.mp hline
      rw [readEntry_line hread]
      exact he'
    · rw [List.mem_singleton.mp hline] at hread
      cases hread

/-! ## The invariant -/

section

variable {κ : Type} {ord : HashOrder} {build : FreehalFile → Contents → κ}
variable {d : StandardDatabase κ}

/-- An entry that is true of the caches. -/
def Built (build : FreehalFile → Contents → κ) (caches : Str → Option κ) (e : Str × Int) : Prop :=
  Plain e.1 ∧ ∃ file contents, file.name = e.1 ∧ intLength contents = e.2 ∧
    caches e.1 = some (build file contents)

/-- All that is known about files is true, in the memory as in the text. -/
structure Backed (build : FreehalFile → Contents → κ) (d : StandardDatabase κ) : Prop where
  names : ∀ file contents, d.disk file = some (.file contents) → Plain file.name
  unique : d.cacheFiles.Unique
  known : ∀ e ∈ d.cacheFiles, Built build d.caches e
  written : ∃ es : List (Str × Int), d.metadata = es.flatMap writeEntry ∧
    ∀ e ∈ es, Built build d.caches e

theorem Backed.fresh : Backed build (StandardDatabase.fresh (κ := κ)) where
  names file contents h := by cases h
  unique := HashMap.Unique.nil
  known e he := by cases he
  written := ⟨[], rfl, fun e he => by cases he⟩

theorem Backed.index (h : Backed build d) {file : FreehalFile} {contents : Contents}
    (hf : d.disk file = some (.file contents)) : Backed build (d.index ord build file contents) := by
  have hunique := h.unique.put file.name (intLength contents)
  have hknown : ∀ e ∈ d.cacheFiles.put file.name (intLength contents),
      Built build (Function.update d.caches file.name (some (build file contents))) e := by
    intro e he
    by_cases hname : e.1 = file.name
    · have hget := hunique.get (k := e.1) (v := e.2) he
      rw [HashMap.get_put, if_pos hname] at hget
      refine ⟨hname ▸ h.names file contents hf, file, contents, hname.symm, ?_, by simp [hname]⟩
      exact Option.some.inj hget
    · rcases HashMap.mem_put he with rfl | he
      · exact absurd rfl hname
      · obtain ⟨hplain, file', contents', h1, h2, h3⟩ := h.known e he
        exact ⟨hplain, file', contents', h1, h2, by simp [hname, h3]⟩
  exact ⟨h.names, hunique, hknown, _, rfl, fun e he => hknown e (ord.mem_enum.mp he)⟩

theorem Backed.updateFile (h : Backed build d) {file : FreehalFile} {contents : Contents}
    (hf : d.disk file = some (.file contents)) :
    Backed build (d.updateFile ord build file contents) := by
  unfold StandardDatabase.updateFile
  split
  · exact h
  · exact h.index hf

@[simp] theorem updateFile_disk (file : FreehalFile) (contents : Contents) :
    (d.updateFile ord build file contents).disk = d.disk := by
  unfold StandardDatabase.updateFile
  split <;> rfl

theorem databaseContents_eq {disk : Disk} {file : FreehalFile} {contents : Contents}
    (h : databaseContents disk file = some contents) : disk file = some (.file contents) := by
  unfold databaseContents at h
  split at h
  · case h_1 contents' heq =>
      split at h
      · cases h
        exact heq
      · cases h
  · cases h

theorem Backed.updateCache (h : Backed build d) (databaseFile : FreehalFile) :
    Backed build (d.updateCache ord build databaseFile) := by
  unfold StandardDatabase.updateCache
  split
  · case h_1 files _ =>
      refine List.foldlRecOn files _ h ?_
      intro d hd file _
      split
      · case h_1 contents heq => exact hd.updateFile (databaseContents_eq heq)
      · exact hd
  · case h_2 contents heq => exact h.updateFile heq
  · exact h

theorem Backed.step (h : Backed build d) {event : Event} (hplain : event.Plain) :
    Backed build (d.step ord build event) := by
  cases event with
  | edit disk => exact { h with names := hplain }
  | restart =>
      obtain ⟨es, htext, hes⟩ := h.written
      have hread : ∀ e ∈ readMetadata d.metadata, e ∈ es := by
        intro e he
        rw [htext] at he
        exact mem_readMetadata (fun e' he' => (hes e' he').1) he
      exact { h with
        unique := HashMap.Unique.nil.putAll _
        known := fun e he => hes e (hread e he) }
  | updateCache databaseFile => exact h.updateCache databaseFile

theorem backed_run {events : List Event} (h : ∀ event ∈ events, event.Plain) :
    Backed build (Lib.run (StandardDatabase.step ord build) StandardDatabase.fresh events) := by
  have hinit : Backed build (StandardDatabase.fresh (κ := κ)) := .fresh
  generalize StandardDatabase.fresh (κ := κ) = d at hinit
  induction events generalizing d with
  | nil => exact hinit
  | cons event events ih =>
      exact ih (fun e he => h e (by simp [he])) _ (hinit.step (h event (by simp)))

/-! ## Updating a file -/

theorem fresh_index (file : FreehalFile) (contents : Contents) :
    (d.index ord build file contents).Fresh build file contents := by
  simp [StandardDatabase.index, StandardDatabase.Fresh]

theorem sameLength_of_get (h : Backed build d) {file : FreehalFile} {contents : Contents}
    (hget : d.cacheFiles.get file.name = some (intLength contents)) :
    d.SameLength build file contents := by
  have hbuilt := h.known _ (HashMap.mem_of_get hget)
  simp only [Built] at hbuilt
  obtain ⟨-, file', contents', hname, hlength, hcaches⟩ := hbuilt
  exact ⟨file', contents', hname, hlength, hcaches⟩

end

/-! ### Files that are not indexed -/

/-- A disk with one file. -/
def single (file : FreehalFile) (contents : Contents) : Disk :=
  fun file' => if file' = file then some (.file contents) else none

theorem plain_single {file : FreehalFile} (h : Plain file.name) (contents : Contents) :
    (Event.edit (single file contents)).Plain := by
  intro file' contents' hf
  simp only [single, Option.ite_none_right_eq_some] at hf
  exact hf.1 ▸ h

def facts : FreehalFile := ⟨"lang".toList, "facts.xml".toList⟩

theorem plain_facts : Plain facts.name := ⟨by decide, by decide⟩

/-- An edit of the same length, with a restart before it. -/
def equalLength : List Event :=
  [.edit (single facts [1]), .updateCache facts, .restart, .edit (single facts [2])]

/-- A name of two lines, the first one like an entry of the metadata. -/
def twoLines : FreehalFile := ⟨"lang".toList, "facts.xml:1\nfacts".toList⟩

def forged : List Event :=
  [.edit (single twoLines [1]), .updateCache twoLines, .restart, .edit (single facts [1])]

end Freehal.Index
