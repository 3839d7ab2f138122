import Freehal.Talk.FactSource
import Freehal.Lib.Run
import Freehal.Universal.Lemmas.Numbers

/-!
# What editing a fact in its source file does

A deletion removes exactly the lines of one block, and so does a replacement: what replaces the
block is never written.
-/

namespace Freehal.Talk

open Universal (atoi_decimal)

/-! ## Replacing texts -/

theorem replaceFrom_drop (c : Char) (text : Str) :
    replaceFrom [c] [] 0 text = text.filter (· ≠ c) := by
  induction text with
  | nil => rfl
  | cons d text ih =>
      by_cases h : d = c
      · subst h
        simp [replaceFrom, ih]
      · have h' : (c == d) = false := by simpa using fun e => h e.symm
        simp [replaceFrom, List.isPrefixOf, h', h, ih]

theorem replace_drop (c : Char) (text : Str) : replace text [c] [] = text.filter (· ≠ c) :=
  replaceFrom_drop c text

/-- The line ends of two characters lose the first one, which is dropped anyway. -/
theorem filter_replace_crlf (text : Str) :
    (replace text ['\r', '\n'] ['\n']).filter (· ≠ '\r') = text.filter (· ≠ '\r') := by
  unfold replace
  induction text with
  | nil => rfl
  | cons c text ih =>
      by_cases hp : ['\r', '\n'].isPrefixOf (c :: text)
      · cases text with
        | nil => simp [List.isPrefixOf] at hp
        | cons d text =>
            have hcd : '\r' = c ∧ '\n' = d := by simpa [List.isPrefixOf] using hp
            obtain ⟨rfl, rfl⟩ := hcd
            simpa [replaceFrom, List.isPrefixOf] using ih
      · rw [replaceFrom, if_neg hp, List.filter_cons, List.filter_cons, ih]

theorem fileLines_eq (text : Str) : fileLines text = (text.filter (· ≠ '\r')).splitOn '\n' := by
  rw [fileLines, replace_drop, filter_replace_crlf]

/-! ## Lines -/

theorem Line.not_mem (l : Line) : '\n' ∉ l.text ∧ '\r' ∉ l.text := by
  refine ⟨?_, ?_⟩
  · intro h
    exact (l.clean _ h).1 rfl
  · intro h
    exact (l.clean _ h).2.1 rfl

theorem Line.filter_cr (l : Line) : l.text.filter (· ≠ '\r') = l.text :=
  List.filter_eq_self.mpr fun c hc => by simpa using (l.clean c hc).2.1

theorem Line.filter_lf (l : Line) : l.text.filter (· ≠ '\n') = l.text :=
  List.filter_eq_self.mpr fun c hc => by simpa using (l.clean c hc).1

/-- After the last line end, an empty line is seen. -/
theorem Written.lines {ls t} (h : Written ls t) :
    ∃ j, fileLines t = (ls ++ List.replicate j Line.blank).map Line.text := by
  rw [fileLines_eq]
  induction h with
  | nil => exact ⟨1, rfl⟩
  | last l h =>
      refine ⟨0, ?_⟩
      rw [l.filter_cr, List.splitOn_eq_singleton l.not_mem.1]
      rfl
  | lf l _ ih =>
      obtain ⟨j, ih⟩ := ih
      refine ⟨j, ?_⟩
      rw [List.filter_append, l.filter_cr, List.filter_cons_of_pos (by decide),
        List.splitOn_append_cons_self_of_not_mem l.not_mem.1, ih]
      rfl
  | crlf l _ ih =>
      obtain ⟨j, ih⟩ := ih
      refine ⟨j, ?_⟩
      rw [List.filter_append, l.filter_cr, List.filter_cons_of_neg (by decide),
        List.filter_cons_of_pos (by decide),
        List.splitOn_append_cons_self_of_not_mem l.not_mem.1, ih]
      rfl

theorem written_lines (ls : List Line) :
    Written ls ((ls.map Line.text).flatMap (· ++ ['\n'])) := by
  induction ls with
  | nil => exact .nil
  | cons l ls ih => simpa using ih.lf l

theorem Consists.lines {bs t} (h : Consists bs t) :
    ∃ j, fileLines t
      = (bs.flatMap Block.lines ++ List.replicate j Line.blank).map Line.text := by
  obtain ⟨i, h⟩ := h
  obtain ⟨j, h⟩ := h.lines
  exact ⟨i + j, by rw [h, List.append_assoc, List.replicate_append_replicate]⟩

/-! ## Counting the blocks -/

@[simp] theorem hasFact_blank : hasFact Line.blank.text = false := by decide

theorem Block.countP (b : Block) : b.lines.countP (hasFact ·.text) = 1 := by
  have h : b.rest.countP (hasFact ·.text) = 0 :=
    List.countP_eq_zero.mpr fun l hl => by simp [b.inside l hl]
  rw [Block.lines, List.countP_cons, h, if_pos b.begins]

theorem countP_blocks (bs : List Block) :
    (bs.flatMap Block.lines).countP (hasFact ·.text) = bs.length := by
  induction bs with
  | nil => rfl
  | cons b bs ih => rw [List.flatMap_cons, List.countP_append, b.countP, ih, List.length_cons]; omega

theorem countP_blank (j : Nat) : (List.replicate j Line.blank).countP (hasFact ·.text) = 0 :=
  List.countP_eq_zero.mpr fun l hl => by rw [List.eq_of_mem_replicate hl]; simp

theorem Consists.countP {bs t} (h : Consists bs t) :
    (fileLines t).countP hasFact = bs.length := by
  obtain ⟨j, h⟩ := h.lines
  rw [h, List.countP_map]
  have := countP_blocks bs
  have := countP_blank j
  simp only [Function.comp_def, List.countP_append] at *
  omega

/-- A text is a sequence of so many blocks only. -/
theorem Consists.length_eq {bs cs t} (h : Consists bs t) (h' : Consists cs t) :
    bs.length = cs.length := h.countP.symm.trans h'.countP

/-! ## The loops over the lines -/

/-- The lines, each with the number of the fact that it stands in. -/
def numbered : Int → List Str → List (Int × Str)
  | _, [] => []
  | n, line :: lines =>
      let n := if hasFact line then n + 1 else n
      (n, line) :: numbered n lines

/-- Nothing was added before, and nothing is added now. -/
theorem replaceLoop_eq (i : Int) (r : Option Str) (lines : List Str) (n : Int) :
    replaceLoop i r lines n false
      = (((numbered n lines).filter (·.1 ≠ i)).map fun p => replace p.2 ['\n'] [], false) := by
  induction lines generalizing n with
  | nil => rfl
  | cons line lines ih =>
      simp only [replaceLoop, numbered]
      generalize (if hasFact line then n + 1 else n) = m
      by_cases h : m = i
      · cases r <;> simp [ih, h]
      · simp [ih, h]

theorem readLoop_eq (i : Int) (lines : List Str) (n : Int) :
    readLoop i lines n
      = ((numbered n lines).filter (·.1 = i)).flatMap fun p => p.2 ++ ['\\', 'n'] := by
  induction lines generalizing n with
  | nil => rfl
  | cons line lines ih =>
      simp only [readLoop, numbered]
      generalize (if hasFact line then n + 1 else n) = m
      by_cases h : m = i <;> simp [ih, h]

@[simp] theorem numbered_map_snd (n : Int) (lines : List Str) :
    (numbered n lines).map Prod.snd = lines := by
  induction lines generalizing n with
  | nil => rfl
  | cons line lines ih => simp [numbered, ih]

theorem numbered_append (n : Int) (lines lines' : List Str) :
    numbered n (lines ++ lines')
      = numbered n lines ++ numbered (n + lines.countP hasFact) lines' := by
  induction lines generalizing n with
  | nil => simp [numbered]
  | cons line lines ih =>
      simp only [List.cons_append, numbered, ih, List.countP_cons, List.cons.injEq, true_and]
      congr 2
      split
      · rw [Int.natCast_add]
        omega
      · simp

theorem numbered_plain {n : Int} {lines : List Str} (h : ∀ l ∈ lines, hasFact l = false) :
    numbered n lines = lines.map (n, ·) := by
  induction lines with
  | nil => rfl
  | cons line lines ih =>
      have hl : hasFact line = false := h line (by simp)
      simp [numbered, hl, ih fun l hl => h l (by simp [hl])]

theorem numbered_block (n : Int) (b : Block) :
    numbered n (b.lines.map Line.text) = (b.lines.map Line.text).map (n + 1, ·) := by
  have h : ∀ l ∈ b.rest.map Line.text, hasFact l = false := by
    intro l hl
    obtain ⟨l', hl', rfl⟩ := List.mem_map.mp hl
    exact b.inside l' hl'
  simp [Block.lines, numbered, b.begins, numbered_plain h]

theorem countP_text (ls : List Line) :
    (ls.map Line.text).countP hasFact = ls.countP (hasFact ·.text) := List.countP_map

theorem numbered_between {n : Int} {lines : List Str} {p : Int × Str}
    (h : p ∈ numbered n lines) : n ≤ p.1 ∧ p.1 ≤ n + lines.countP hasFact := by
  induction lines generalizing n with
  | nil => simp [numbered] at h
  | cons line lines ih =>
      simp only [numbered, List.mem_cons] at h
      rw [List.countP_cons]
      by_cases hf : hasFact line
      · simp only [hf, if_true] at h ⊢
        rcases h with rfl | h
        · simp only
          omega
        · have := ih h
          omega
      · simp only [hf, Bool.false_eq_true, if_false] at h ⊢
        rcases h with rfl | h
        · simp only
          omega
        · have := ih h
          omega

/-- Each line of a sequence of blocks has the number of its block. -/
theorem numbered_blocks {n : Int} {bs : List Block} {p : Int × Str}
    (h : p ∈ numbered n ((bs.flatMap Block.lines).map Line.text)) :
    n < p.1 ∧ p.1 ≤ n + bs.length := by
  cases bs with
  | nil => simp [numbered] at h
  | cons b bs =>
      rw [List.flatMap_cons, List.map_append, numbered_append, numbered_block, countP_text,
        b.countP, List.mem_append] at h
      rcases h with h | h
      · obtain ⟨_, -, rfl⟩ := List.mem_map.mp h
        simp only [List.length_cons]
        omega
      · have := numbered_between h
        rw [countP_text, countP_blocks] at this
        simp only [List.length_cons] at *
        omega

/-- The lines before a block, its own lines, those of the other blocks and the blank ones. -/
theorem numbered_parts (as : List Block) (b : Block) (cs : List Block) (j : Nat) :
    numbered 0 (((as ++ b :: cs).flatMap Block.lines ++ List.replicate j Line.blank).map Line.text)
      = numbered 0 ((as.flatMap Block.lines).map Line.text) ++
        ((b.lines.map Line.text).map ((as.length : Int) + 1, ·) ++
        (numbered (as.length + 1) ((cs.flatMap Block.lines).map Line.text) ++
        List.replicate j ((as.length : Int) + 1 + cs.length, []))) := by
  have hblank : ∀ l ∈ (List.replicate j Line.blank).map Line.text, hasFact l = false := by
    intro l hl
    rw [List.map_replicate] at hl
    rw [List.eq_of_mem_replicate hl, hasFact_blank]
  simp only [List.flatMap_append, List.flatMap_cons, List.map_append, List.append_assoc,
    numbered_append, numbered_block, numbered_plain hblank, countP_text, countP_blocks, b.countP]
  simp [Line.blank]

/-- What the numbers select before and after a block. -/
theorem numbered_others (as cs : List Block) :
    (∀ p ∈ numbered 0 ((as.flatMap Block.lines).map Line.text), p.1 ≠ (as.length : Int) + 1) ∧
    ∀ p ∈ numbered (as.length + 1) ((cs.flatMap Block.lines).map Line.text),
      p.1 ≠ (as.length : Int) + 1 := by
  refine ⟨?_, ?_⟩
  · intro p hp
    have := numbered_blocks hp
    omega
  · intro p hp
    have := numbered_blocks hp
    omega

theorem exists_parts {bs : List Block} {k : Nat} (hk : k < bs.length) :
    ∃ as cs, bs = as ++ bs[k] :: cs ∧ as.length = k :=
  ⟨bs.take k, bs.drop (k + 1), by simp, by simp; omega⟩

/-- Leaving out the lines with the number of a block leaves the other blocks. -/
theorem lines_deleted {bs : List Block} {k : Nat} (hk : k < bs.length) (j : Nat) :
    ∃ i, ((numbered 0 ((bs.flatMap Block.lines ++ List.replicate j Line.blank).map
        Line.text)).filter (·.1 ≠ (k : Int) + 1)).map Prod.snd
      = ((bs.eraseIdx k).flatMap Block.lines ++ List.replicate i Line.blank).map Line.text := by
  obtain ⟨as, cs, hbs, rfl⟩ := exists_parts hk
  generalize bs[as.length] = b at hbs
  subst hbs
  obtain ⟨hA, hC⟩ := numbered_others as cs
  have hB : ((b.lines.map Line.text).map ((as.length : Int) + 1, ·)).filter
      (·.1 ≠ (as.length : Int) + 1) = [] := by simp
  refine ⟨if cs = [] then 0 else j, ?_⟩
  rw [numbered_parts, List.filter_append, List.filter_append, List.filter_append, hB,
    List.filter_eq_self.mpr (by simpa using hA), List.filter_eq_self.mpr (by simpa using hC)]
  cases cs with
  | nil => simp [List.eraseIdx_append, numbered]
  | cons c cs =>
      have hne : ¬ (as.length : Int) + 1 + (cs.length + 1) = as.length + 1 := by omega
      simp [List.eraseIdx_append, hne, Line.blank]

/-- The lines with the number of a block are its own. -/
theorem lines_selected {bs : List Block} {k : Nat} (hk : k < bs.length) (j : Nat) :
    ∃ i, ((numbered 0 ((bs.flatMap Block.lines ++ List.replicate j Line.blank).map
        Line.text)).filter (·.1 = (k : Int) + 1)).map Prod.snd
      = (bs[k].lines ++ List.replicate i Line.blank).map Line.text := by
  obtain ⟨as, cs, hbs, rfl⟩ := exists_parts hk
  generalize bs[as.length] = b at hbs ⊢
  subst hbs
  obtain ⟨hA, hC⟩ := numbered_others as cs
  have hB : ((b.lines.map Line.text).map ((as.length : Int) + 1, ·)).filter
      (·.1 = (as.length : Int) + 1) = (b.lines.map Line.text).map ((as.length : Int) + 1, ·) := by
    simp
  refine ⟨if cs = [] then j else 0, ?_⟩
  rw [numbered_parts, List.filter_append, List.filter_append, List.filter_append, hB,
    List.filter_eq_nil_iff.mpr (by simpa using hA), List.filter_eq_nil_iff.mpr (by simpa using hC)]
  cases cs with
  | nil => simp [Line.blank]
  | cons c cs =>
      have hne : ¬ (as.length : Int) + 1 + (cs.length + 1) = as.length + 1 := by omega
      simp [hne]

/-! ## Sources -/

theorem extractInt_decimal (n : Nat) : extractInt (Lib.decimal n) = min 2147483647 n := by
  rw [extractInt, atoi_decimal]
  omega

theorem sourceParts_sourceOf {filename : Str} (h : ':' ∉ filename) (k : Nat) :
    sourceParts (sourceOf filename k) = some (filename, Lib.decimal (k + 1)) := by
  have hd : ':' ∉ Lib.decimal (k + 1) := Lib.not_mem_decimal rfl
  rw [sourceParts, sourceOf, List.splitOn_append_cons_self_of_not_mem h,
    List.splitOn_eq_singleton hd]

theorem colon_not_mem_of_sourceParts {source filename line : Str}
    (h : sourceParts source = some (filename, line)) : ':' ∉ filename := by
  unfold sourceParts at h
  split at h
  · case h_1 filename' line' rest heq =>
      cases h
      exact Lib.not_mem_of_mem_splitOn (s := source) (by simp [heq])
  · cases h

/-! ## Deleting and reading a block -/

/-- A replacement that is not added is a deletion. -/
theorem replace_eq_delete {e : Editor} (he : e.added = false) (source : Str) (r : Option Str) :
    factReplaceInSource e source r = factDeleteFromSource e source := by
  simp only [factDeleteFromSource, factReplaceInSource, he, replaceLoop_eq]

/-- What a deletion does, where it is defined. -/
theorem delete_cases {e e' : Editor} (he : e.added = false) {source : Str}
    (h : factDeleteFromSource e source = some e') :
    e'.added = false ∧ ∃ filename line, sourceParts source = some (filename, line) ∧
      (∀ g, g ≠ filename → e'.files g = e.files g) ∧
      (e.files filename = none → e'.files filename = none) ∧
      ∀ text, e.files filename = some text → e'.files filename = some
        ((((numbered 0 (fileLines text)).filter (·.1 ≠ extractInt line)).map
          fun p => replace p.2 ['\n'] []).flatMap (· ++ ['\n'])) := by
  simp only [factDeleteFromSource, factReplaceInSource, he, replaceLoop_eq] at h
  split at h
  · cases h
  · case h_2 filename line hs =>
      split at h
      · case h_1 hf =>
          cases h
          exact ⟨he, filename, line, hs, fun _ _ => rfl, fun _ => hf, by simp [hf]⟩
      · case h_2 text hf =>
          cases h
          exact ⟨rfl, filename, line, hs, fun g hg => by simp [hg], by simp [hf], by simp [hf]⟩

/-- Nothing is ever added. -/
theorem added_run (files : Str → Option Str) (edits : List Edit) :
    (Lib.run Editor.step (Editor.fresh files) edits).added = false := by
  refine Lib.run_induction (I := fun e : Editor => e.added = false) rfl ?_
  intro e edit he
  have hdelete : ∀ source, ((factDeleteFromSource e source).getD e).added = false := by
    intro source
    cases h : factDeleteFromSource e source with
    | none => exact he
    | some e' => exact (delete_cases he h).1
  cases edit with
  | replace source r =>
      rw [Editor.step, replace_eq_delete he]
      exact hdelete source
  | delete source => exact hdelete source

/-- The lines that stay are written again as they were. -/
theorem Consists.deleted {bs : List Block} {t : Str} (h : Consists bs t) {k : Nat}
    (hk : k < bs.length) :
    Consists (bs.eraseIdx k) ((((numbered 0 (fileLines t)).filter (·.1 ≠ (k : Int) + 1)).map
      fun p => replace p.2 ['\n'] []).flatMap (· ++ ['\n'])) := by
  obtain ⟨j, h⟩ := h.lines
  obtain ⟨i, hi⟩ := lines_deleted hk j
  refine ⟨i, ?_⟩
  have hmap : ∀ ps : List (Int × Str), ps.map (fun p => replace p.2 ['\n'] [])
      = (ps.map Prod.snd).map (·.filter (· ≠ '\n')) := by
    intro ps
    simp [replace_drop]
  have hself : ∀ ls : List Line, (ls.map Line.text).map (·.filter (· ≠ '\n'))
      = ls.map Line.text := by
    intro ls
    rw [List.map_map]
    exact List.map_congr_left fun l _ => l.filter_lf
  rw [h, hmap, hi, hself]
  exact written_lines _

variable {e : Editor} {filename t : Str} {bs : List Block} {k : Nat}

/-- A deletion leaves the other blocks in their order. The number is read as an `int`. -/
theorem delete_block (he : e.added = false) (hname : ':' ∉ filename)
    (hf : e.files filename = some t) (hbs : Consists bs t) (hk : k < bs.length) :
    ∃ e' t', factDeleteFromSource e (sourceOf filename k) = some e' ∧
      e'.files filename = some t' ∧ Consists (bs.eraseIdx (min k 2147483646)) t' ∧
      ∀ g, g ≠ filename → e'.files g = e.files g := by
  have hs := sourceParts_sourceOf hname k
  have hline : extractInt (Lib.decimal (k + 1)) = ((min k 2147483646 : Nat) : Int) + 1 := by
    rw [extractInt_decimal]
    omega
  have hdef : ∃ e', factDeleteFromSource e (sourceOf filename k) = some e' := by
    simp only [factDeleteFromSource, factReplaceInSource, hs, hf]
    exact ⟨_, rfl⟩
  obtain ⟨e', he'⟩ := hdef
  obtain ⟨-, filename', line, hs', hother, -, hfile⟩ := delete_cases he he'
  rw [hs] at hs'
  cases hs'
  have ht' := hfile t hf
  rw [hline] at ht'
  exact ⟨e', _, he', ht', hbs.deleted (by omega), hother⟩

/-! ## Reading a block -/

def nonblank (lines : List Str) : List Str := lines.filter (· ≠ [])

theorem numbered_nonblank (n : Int) (lines : List Str) :
    (numbered n lines).filter (·.2 ≠ []) = numbered n (nonblank lines) := by
  induction lines generalizing n with
  | nil => rfl
  | cons line lines ih =>
      rw [nonblank, List.filter_cons]
      by_cases h : line = []
      · subst h
        have hblank : hasFact [] = false := hasFact_blank
        simpa [numbered, hblank, nonblank] using ih n
      · simpa [numbered, h, nonblank] using ih (if hasFact line then n + 1 else n)

theorem selected_nonblank (i : Int) (lines : List Str) :
    nonblank (((numbered 0 lines).filter (·.1 = i)).map Prod.snd)
      = ((numbered 0 (nonblank lines)).filter (·.1 = i)).map Prod.snd := by
  rw [← numbered_nonblank, nonblank, List.filter_map, List.filter_filter, List.filter_filter]
  congr 2
  funext p
  exact Bool.and_comm _ _

theorem Line.not_isEnd (l : Line) :
    ∀ c ∈ l.text, (fun c : Char => c = '\n' || c = '\r') c = false := by
  intro c hc
  have := l.clean c hc
  simp [this.1, this.2.1]

/-- Each line end is a separator, so that one of two characters gives an empty line. -/
theorem Written.pieces {ls t} (h : Written ls t) :
    nonblank (t.splitOnP (fun c => c = '\n' || c = '\r')) = nonblank (ls.map Line.text) := by
  induction h with
  | nil => rfl
  | last l h => rw [List.splitOnP_eq_singleton l.not_isEnd]; rfl
  | lf l _ ih =>
      rw [List.splitOnP_append_cons_of_forall_mem l.not_isEnd _ rfl]
      simp only [nonblank, List.map_cons, List.filter_cons] at ih ⊢
      rw [ih]
  | crlf l _ ih =>
      rw [List.splitOnP_append_cons_of_forall_mem l.not_isEnd _ rfl,
        ← List.nil_append ('\n' :: _),
        List.splitOnP_append_cons_of_forall_mem (by simp) _ rfl]
      simp only [nonblank, List.map_cons, List.filter_cons] at ih ⊢
      rw [ih]
      rfl

theorem cStr_eq {text : Str} (h : Char.ofNat 0 ∉ text) : cStr text = text :=
  List.takeWhile_eq_self_iff.mpr fun c hc => by
    simpa using fun e : c = Char.ofNat 0 => h (e ▸ hc)

/-- The lines of the block are read. The number is read as an `int`. -/
theorem read_block (hname : ':' ∉ filename) (hf : e.files filename = some t)
    (hbs : Consists bs t) (hk : k < bs.length) :
    ∃ entry, factReadFromSource e (sourceOf filename k) = some entry ∧
      Reads bs[min k 2147483646] entry := by
  obtain ⟨j, ht⟩ := hbs
  have hk' : min k 2147483646 < bs.length := by omega
  obtain ⟨i, hi⟩ := lines_selected hk' j
  have hline : extractInt (Lib.decimal (k + 1)) = ((min k 2147483646 : Nat) : Int) + 1 := by
    rw [extractInt_decimal]
    omega
  have hsel := selected_nonblank (((min k 2147483646 : Nat) : Int) + 1)
    (t.splitOnP (fun c => c = '\n' || c = '\r'))
  rw [ht.pieces, ← selected_nonblank, hi] at hsel
  generalize hlines : ((numbered 0 (t.splitOnP (fun c => c = '\n' || c = '\r'))).filter
    (·.1 = ((min k 2147483646 : Nat) : Int) + 1)).map Prod.snd = lines at hsel
  have hread : readLoop (extractInt (Lib.decimal (k + 1)))
      (t.splitOnP (fun c => c = '\n' || c = '\r')) 0 = lines.flatMap (· ++ ['\\', 'n']) := by
    rw [readLoop_eq, hline, ← hlines, List.flatMap_map]
  have hblank : nonblank lines = nonblank (bs[min k 2147483646].lines.map Line.text) := by
    rw [hsel]
    simp [nonblank, Line.blank]
  have hclean : Char.ofNat 0 ∉ lines.flatMap (· ++ ['\\', 'n']) := by
    intro h
    obtain ⟨line, hmem, hc⟩ := List.mem_flatMap.mp h
    have hc : Char.ofNat 0 ∈ line := by simpa using hc
    have hne : line ≠ [] := List.ne_nil_of_mem hc
    have : line ∈ nonblank lines := List.mem_filter.mpr ⟨hmem, by simpa using hne⟩
    rw [hblank] at this
    obtain ⟨l, -, rfl⟩ := List.mem_map.mp (List.mem_of_mem_filter this)
    exact (l.clean _ hc).2.2 rfl
  refine ⟨_, ?_, lines, rfl, ?_⟩
  · simp only [factReadFromSource, sourceParts_sourceOf hname, hf, Option.map_some, hread,
      cStr_eq hclean]
  · exact hblank

/-! ## Editing a fact -/

theorem Replaces.false {r : Str} {b : Block} (he : e.added = false) (hname : ':' ∉ filename)
    (hf : e.files filename = some t) (hbs : Consists bs t) (hk : k < bs.length) :
    ¬ Replaces e filename bs k r b := by
  intro h
  obtain ⟨e₁, t₁, hreplace, hf₁, hset⟩ := h
  obtain ⟨e₂, t₂, hdelete, hf₂, herase, -⟩ := delete_block he hname hf hbs hk
  rw [replace_eq_delete he, hdelete] at hreplace
  cases hreplace
  rw [hf₁] at hf₂
  cases hf₂
  have := hset.length_eq herase
  rw [List.length_set, List.length_eraseIdx_of_lt (by omega)] at this
  omega

/-- A name with a colon is cut: another file is edited. -/
theorem Deletes.false (he : e.added = false) (hname : ':' ∈ filename)
    (hf : e.files filename = some t) (hbs : Consists bs t) (hk : k < bs.length) :
    ¬ Deletes e filename bs k := by
  intro h
  obtain ⟨e₁, t₁, hdelete, hf₁, herase⟩ := h
  obtain ⟨-, filename', line, hs, hother, -, -⟩ := delete_cases he hdelete
  have hne : filename ≠ filename' := by
    intro heq
    exact colon_not_mem_of_sourceParts hs (heq ▸ hname)
  rw [hother filename hne, hf] at hf₁
  cases hf₁
  have := hbs.length_eq herase
  rw [List.length_eraseIdx_of_lt hk] at this
  omega

/-- No replacement is ever written, whatever was edited before in the same process. -/
theorem replacement_lost (files : Str → Option Str) (edits : List Edit) {filename t : Str}
    {bs : List Block} (hf : (Lib.run Editor.step (Editor.fresh files) edits).files filename = some t)
    (hbs : Consists bs t) {k : Nat} (hk : k < bs.length) (r : Str) (b : Block) :
    ¬ Edits (Lib.run Editor.step (Editor.fresh files) edits) filename bs k r b ∧
    (':' ∉ filename →
      ¬ Replaces (Lib.run Editor.step (Editor.fresh files) edits) filename bs k r b) := by
  have he := added_run files edits
  refine ⟨?_, ?_⟩
  · intro h
    by_cases hname : ':' ∈ filename
    · exact Deletes.false he hname hf hbs hk h.deleted
    · exact Replaces.false he hname hf hbs hk h.replaced
  · intro hname
    exact Replaces.false he hname hf hbs hk

/-! ### A file of two facts -/

/-- A block of one line. -/
def Block.line (text : Str) (h : text.all (· ∉ ['\n', '\r', Char.ofNat 0]) = true)
    (hf : hasFact text) : Block :=
  ⟨⟨text, by simpa using h⟩, [], hf, by simp⟩

def cat : Block := .line "<fact>cat".toList (by decide) (by decide)

def dog : Block := .line "<fact>dog".toList (by decide) (by decide)

def cow : Block := .line "<fact>cow".toList (by decide) (by decide)

def animals : Str → Option Str
  | ['f'] => some "<fact>cat\n<fact>dog\n".toList
  | _ => none

theorem consists_animals : Consists [cat, dog] "<fact>cat\n<fact>dog\n".toList :=
  ⟨0, Written.lf cat.first (Written.lf dog.first Written.nil)⟩

theorem replacement_lost_cow :
    ¬ Edits (Editor.fresh animals) ['f'] [cat, dog] 0 "<fact>cow".toList cow :=
  (replacement_lost animals [] (k := 0) rfl consists_animals (by decide) _ _).1

/-- The first fact is not replaced, it is deleted. -/
theorem fact_not_replaced :
    ¬ ∀ (files : Str → Option Str) (edits : List Edit) (filename t : Str) (bs : List Block)
      (k : Nat) (r : Str) (b : Block),
      (Lib.run Editor.step (Editor.fresh files) edits).files filename = some t →
      Consists bs t → k < bs.length →
      Edits (Lib.run Editor.step (Editor.fresh files) edits) filename bs k r b := by
  intro h
  obtain ⟨e, t, hreplace, hf, hset⟩ :=
    (h animals [] ['f'] _ [cat, dog] 0 "<fact>cow".toList cow rfl consists_animals
      (by decide)).replaced
  have hlost : (factReplaceInSource (Editor.fresh animals) (sourceOf ['f'] 0)
      (some "<fact>cow".toList)).bind (·.files ['f']) = some "<fact>dog\n\n".toList := by
    decide +kernel
  have hrun : Lib.run Editor.step (Editor.fresh animals) [] = Editor.fresh animals := rfl
  rw [hrun] at hreplace
  rw [hreplace, Option.bind_some, hf] at hlost
  cases hlost
  have : (fileLines "<fact>dog\n\n".toList).countP hasFact = 2 := hset.countP
  revert this
  decide +kernel

end Freehal.Talk
