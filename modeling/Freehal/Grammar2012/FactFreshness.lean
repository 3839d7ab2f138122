import Freehal.Grammar2012.FactVersions
import Mathlib.Data.List.Nodup

/-!
# How fresh the index of facts is

Each file of the index holds the printed facts of the version that its path had when it was last
prepared, as long as a new version has another size and all keys of the one before, and no two
paths have the same base name.
-/

namespace Freehal.Grammar2012

open Lib (HashMap HashOrder)

variable {ord : HashOrder} {isSynonym : XmlObj → Bool}

/-! ## Reading the index -/

/-- Facts that are read as they were printed are told apart by what is printed. -/
theorem printXml_injective {x y : XmlObj} (hx : x.Kept) (hy : y.Kept)
    (h : x.printXml = y.printXml) : x = y := by
  have hreadx := reread_kept [x] fun z hz => List.mem_singleton.mp hz ▸ hx
  have hready := reread_kept [y] fun z hz => List.mem_singleton.mp hz ▸ hy
  have hsame : reread [x] = reread [y] := by simp [reread, h]
  rw [hreadx, hready, Except.ok.injEq, List.cons.injEq] at hsame
  exact hsame.1

/-- A list of printed facts is read back. -/
theorem read_prints {facts : List XmlObj} {key : Str} {list : List Str}
    (hkept : ∀ fact ∈ facts, fact.Kept) (h : Prints facts key list) :
    ∃ read, halxmlReadfacts (halxmlOrdertags list.flatten) = .ok read ∧
      ∀ fact, fact ∈ read ↔ fact ∈ facts ∧ key ∈ factKeys fact := by
  have hsources : ∀ l : List Str, (∀ s ∈ l, s ∈ list) → ∃ read : List XmlObj,
      l = read.map XmlObj.printXml ∧ ∀ fact ∈ read, fact ∈ facts ∧ key ∈ factKeys fact := by
    intro l hl
    induction l with
    | nil => exact ⟨[], rfl, by simp⟩
    | cons s l ih =>
        obtain ⟨read, rfl, hread⟩ := ih fun t ht => hl t (List.mem_cons_of_mem _ ht)
        obtain ⟨fact, hfact, hkey, rfl⟩ := (h s).mp (hl s List.mem_cons_self)
        exact ⟨fact :: read, rfl, List.forall_mem_cons.mpr ⟨⟨hfact, hkey⟩, hread⟩⟩
  obtain ⟨read, hlist, hread⟩ := hsources list fun _ hs => hs
  refine ⟨read, ?_, fun fact => ⟨hread fact, ?_⟩⟩
  · rw [hlist, ← List.flatMap_def]
    exact reread_kept read fun fact hfact => hkept fact (hread fact hfact).1
  · rintro ⟨hfact, hkey⟩
    have hmem := (h fact.printXml).mpr ⟨fact, hfact, hkey, rfl⟩
    rw [hlist] at hmem
    obtain ⟨fact', hfact', hprint⟩ := List.mem_map.mp hmem
    rwa [← printXml_injective (hkept fact' (hread fact' hfact').1) (hkept fact hfact) hprint]

theorem not_synonym_of_mem {contents : Str} {fact : XmlObj}
    (h : fact ∈ factsOf isSynonym contents) : isSynonym fact = false := by
  unfold factsOf at h
  split at h
  · cases h
  · split at h
    · simpa using (List.mem_filter.mp h).2
    · cases h

/-- Reading the files of a directory collects their facts. -/
theorem foldlM_readfacts {files : HashMap Str (List Str)} {P : Str → XmlObj → Prop}
    (hsynonym : ∀ name fact, P name fact → isSynonym fact = false)
    (h : ∀ file ∈ files, ∃ read, halxmlReadfacts (halxmlOrdertags file.2.flatten) = .ok read ∧
      ∀ fact, fact ∈ read ↔ P file.1 fact) (idb : IndexDb) :
    ∃ idb', files.foldlM (fun idb file => idb.readfacts isSynonym file.2.flatten) idb = .ok idb' ∧
      ∀ fact, fact ∈ idb'.uniquefacts ↔
        fact ∈ idb.uniquefacts ∨ ∃ file ∈ files, P file.1 fact := by
  induction files generalizing idb with
  | nil => exact ⟨idb, rfl, by simp⟩
  | cons file files ih =>
      obtain ⟨read, hread, hmem⟩ := h file List.mem_cons_self
      obtain ⟨idb', hfold, hall⟩ := ih (fun f hf => h f (List.mem_cons_of_mem _ hf))
        (read.foldl (IndexDb.insertFact isSynonym) idb)
      refine ⟨idb', ?_, fun fact => ?_⟩
      · rw [List.foldlM_cons, IndexDb.readfacts, hread]
        exact hfold
      · rw [hall, (IndexDb.foldl_insertFact idb read).1, List.mem_append, List.mem_filter, hmem,
          or_assoc]
        refine or_congr_right ?_
        constructor
        · rintro (⟨hp, -⟩ | ⟨f, hf, hp⟩)
          · exact ⟨file, List.mem_cons_self, hp⟩
          · exact ⟨f, List.mem_cons_of_mem _ hf, hp⟩
        · rintro ⟨f, hf, hp⟩
          rcases List.mem_cons.mp hf with rfl | hf
          · exact Or.inl ⟨hp, by rw [hsynonym _ _ hp]; rfl⟩
          · exact Or.inr ⟨f, hf, hp⟩

theorem Stored.getFacts {calls : List Call} {files : HashMap Path Nat} {index : DiskIndex}
    (h : Stored isSynonym calls files index) (word : Word) :
    ∃ facts, getFacts ord isSynonym index word = .ok facts ∧ ∀ fact, fact ∈ facts ↔
      ∃ p contents, lastVersion calls p = some contents ∧
        fact ∈ factsOf isSynonym contents ∧ diskdbKey word.text ∈ factKeys fact := by
  set key := diskdbKey word.text with hkey
  have hfile : ∀ file ∈ ord.enum (index key), ∃ p contents, lastVersion calls p = some contents ∧
      filename p = file.1 ∧ (index key).get file.1 = some file.2 := by
    intro file hmem
    have hget := (h.unique key).get (v := file.2) (ord.mem_enum.mp hmem)
    obtain ⟨p, contents, hp, hname⟩ := h.names key _ _ hget
    exact ⟨p, contents, hp, hname, hget⟩
  obtain ⟨idb, hfold, hall⟩ := @foldlM_readfacts isSynonym (ord.enum (index key))
    (fun name fact => ∃ p contents, lastVersion calls p = some contents ∧ filename p = name ∧
      fact ∈ factsOf isSynonym contents ∧ key ∈ factKeys fact)
    (by
      rintro name fact ⟨p, contents, -, -, hfact, -⟩
      exact not_synonym_of_mem hfact)
    (by
      intro file hmem
      obtain ⟨p, contents, hp, hname, hget⟩ := hfile file hmem
      have hlist := h.lists p contents hp key
      rw [hname, hget] at hlist
      obtain ⟨read, hread, hfacts⟩ := read_prints (h.kept p contents hp) hlist
      refine ⟨read, hread, fun fact => (hfacts fact).trans ?_⟩
      constructor
      · rintro ⟨hfact, hk⟩
        exact ⟨p, contents, hp, hname, hfact, hk⟩
      · rintro ⟨p', contents', hp', hname', hfact, hk⟩
        obtain rfl := h.distinct p p' contents contents' hp hp' (hname.trans hname'.symm)
        rw [hp] at hp'
        cases hp'
        exact ⟨hfact, hk⟩) IndexDb.new
  refine ⟨idb.uniquefacts, ?_, fun fact => ?_⟩
  · rw [Grammar2012.getFacts, IndexDb.fromDisk, ← hkey, hfold]
    rfl
  · rw [hall]
    constructor
    · rintro (hnew | ⟨file, -, p, contents, hp, -, hfact⟩)
      · cases hnew
      · exact ⟨p, contents, hp, hfact⟩
    · rintro ⟨p, contents, hp, hfact, hk⟩
      have hmem := (h.lists p contents hp key fact.printXml).mpr ⟨fact, hfact, hk, rfl⟩
      cases hget : (index key).get (filename p) with
      | none =>
          rw [hget] at hmem
          cases hmem
      | some list =>
          exact Or.inr ⟨(filename p, list), ord.mem_enum.mpr (HashMap.mem_of_get hget),
            p, contents, hp, rfl, hfact, hk⟩

/-! ## The versions that `prepare` finds -/

mutual
/-- A path is come to once. -/
theorem Node.calls_nodup (p : Path) (node : Node) (h : node.Distinct) :
    ((node.calls p).map Prod.fst).Nodup ∧ ∀ call ∈ node.calls p, p <+: call.1 := by
  match node, h with
  | .file contents, _ => exact ⟨List.nodup_singleton _, by simp [Node.calls]⟩
  | .directory entries, h =>
      obtain ⟨hnodup, hbegins⟩ := entries.calls_nodup p h.1 h.2
      refine ⟨hnodup, fun call hcall => ?_⟩
      obtain ⟨name, -, hname⟩ := hbegins call hcall
      exact (List.prefix_append p [name]).trans hname

theorem Entries.calls_nodup (p : Path) (entries : Entries) (hnames : entries.names.Nodup)
    (h : entries.Distinct) : ((entries.calls p).map Prod.fst).Nodup ∧
      ∀ call ∈ entries.calls p, ∃ name ∈ entries.names, p ++ [name] <+: call.1 := by
  match entries, hnames, h with
  | .nil, _, _ => exact ⟨List.nodup_nil, fun _ h => (by cases h)⟩
  | .cons name node entries, hnames, h =>
      obtain ⟨hname, hnames⟩ := List.nodup_cons.mp hnames
      obtain ⟨hnodup, hbegins⟩ := entries.calls_nodup p hnames h.2
      obtain ⟨hnode, hstarts⟩ := node.calls_nodup (p ++ [name]) h.1
      have hrest : ∀ call ∈ entries.calls p,
          ∃ name' ∈ (Entries.cons name node entries).names, p ++ [name'] <+: call.1 := by
        intro call hcall
        obtain ⟨name', hname', hcall⟩ := hbegins call hcall
        exact ⟨name', List.mem_cons_of_mem _ hname', hcall⟩
      rw [Entries.calls]
      split
      · rw [List.map_append, List.nodup_append]
        refine ⟨⟨hnode, hnodup, ?_⟩, fun call hcall => ?_⟩
        · rintro _ hq _ hq' rfl
          obtain ⟨call, hcall, rfl⟩ := List.mem_map.mp hq
          obtain ⟨call', hcall', heq⟩ := List.mem_map.mp hq'
          obtain ⟨name', hname', hbegin⟩ := hbegins call' hcall'
          rw [heq] at hbegin
          -- both names stand behind `p` in the same path
          have hsame : p ++ [name'] = p ++ [name] := by
            obtain ⟨r, hr⟩ := hbegin
            obtain ⟨r', hr'⟩ := hstarts call hcall
            exact (List.append_inj (hr.trans hr'.symm) (by simp)).1
          rw [List.append_cancel_left_eq, List.singleton_inj] at hsame
          exact hname (hsame ▸ hname')
        · rcases List.mem_append.mp hcall with hcall | hcall
          · exact ⟨name, List.mem_cons_self, hstarts call hcall⟩
          · exact hrest call hcall
      · exact ⟨hnodup, hrest⟩
end

theorem Entries.find_distinct {name : Str} {entries : Entries} {node : Node}
    (h : entries.Distinct) (hfind : entries.find name = some node) : node.Distinct := by
  match entries, h with
  | .nil, _ => cases hfind
  | .cons name' node' entries, h =>
      rw [Entries.find] at hfind
      split at hfind
      · cases hfind
        exact h.1
      · exact Entries.find_distinct h.2 hfind

theorem Node.find_distinct {p : Path} {root node : Node} (h : root.Distinct)
    (hfind : root.find p = some node) : node.Distinct := by
  induction p generalizing root with
  | nil =>
      rw [Node.find] at hfind
      cases hfind
      exact h
  | cons name p ih =>
      cases root with
      | file contents => cases hfind
      | directory entries =>
          rw [Node.find, Option.bind_eq_some_iff] at hfind
          obtain ⟨child, hchild, hfind⟩ := hfind
          exact ih (Entries.find_distinct h.2 hchild) hfind

theorem Disk.calls_nodup (disk : Disk) (p : Path) : ((disk.calls p).map Prod.fst).Nodup := by
  unfold Disk.calls
  cases hfind : disk.root.find p with
  | none => exact List.nodup_nil
  | some node => exact (Node.calls_nodup p node (Node.find_distinct disk.distinct hfind)).1

theorem lastVersion_append {calls more : List Call} (h : (more.map Prod.fst).Nodup) {call : Call}
    (hcall : call ∈ more) : lastVersion (calls ++ more) call.1 = some call.2 := by
  induction more using List.reverseRecOn with
  | nil => cases hcall
  | append_singleton more last ih =>
      rw [List.map_append, List.nodup_append] at h
      rw [← List.append_assoc, lastVersion_concat]
      rcases List.mem_append.mp hcall with hcall | hcall
      · have hne : ¬ last.1 = call.1 := fun he =>
          h.2.2 _ (List.mem_map_of_mem hcall) last.1 (by simp) he.symm
        rw [if_neg hne]
        exact ih h.1 hcall
      · rw [List.mem_singleton.mp hcall, if_pos rfl]

theorem callsFrom_prepare (disk : Disk) (events : List Event) (p : Path) :
    callsFrom disk (events ++ [.prepare p]) =
      callsFrom disk events ++ (events.foldl Event.diskAfter disk).calls p := by
  induction events generalizing disk with
  | nil => simp [callsFrom]
  | cons event events ih =>
      rw [List.cons_append, callsFrom_cons, ih, callsFrom_cons disk event events, List.foldl_cons,
        List.append_assoc]

/-- A file with facts that have one word each. -/
def wordFile (words : List Str) : Str :=
  words.flatMap fun word => "<fact><verb><text>".toList ++ word ++ "</text></verb></fact>".toList

/-- A disk with one file. -/
def singleDisk (contents : Str) : Disk where
  root := .directory (.cons "facts.xml".toList (.file contents) .nil)
  distinct := ⟨List.nodup_singleton _, trivial, trivial⟩

def factsPath : Path := ["facts.xml".toList]

theorem verbFact_kept {text : Str} (hne : text ≠ []) (hplain : text.all isPlain = true)
    (hdefault : isDefault text = false) (hnormal : normalValue text = text) :
    (simpleFact "verb".toList text).Kept := by
  have hfact : TagName "fact".toList := tagName_of_word (by decide) (by decide)
  have hverb : TagName "verb".toList := tagName_of_word (by decide) (by decide)
  have htext : TagName "text".toList := tagName_of_word (by decide) (by decide)
  refine ⟨⟨_, rfl⟩, simpleFact_shaped (plainText_of_word hne hplain), ?_⟩
  simp only [simpleFact, XmlObj.Normal, NormalAll, and_true]
  exact ⟨hfact, hverb, htext, trivial, hdefault, hnormal⟩

theorem regularCalls_pair {first second : Call} (hfirst : Regular isSynonym [] first)
    (hsecond : Regular isSynonym [first] second) : RegularCalls isSynonym [first, second] := by
  intro before call after h
  match before with
  | [] =>
      cases h
      exact hfirst
  | [_] =>
      cases h
      exact hsecond
  | _ :: _ :: before => simp at h

def oldDisk : Disk := singleDisk (wordFile ["katze".toList])

def newDisk : Disk := singleDisk (wordFile ["katze".toList, "hunde".toList])

theorem regular_words : RegularCalls (fun _ => false)
    (callsFrom oldDisk ([.prepare factsPath, .edit newDisk] ++ [.prepare factsPath])) := by
  have hold : factsOf (fun _ => false) (wordFile ["katze".toList]) =
      [simpleFact "verb".toList "katze".toList] := rfl
  have hnew : factsOf (fun _ => false) (wordFile ["katze".toList, "hunde".toList]) =
      [simpleFact "verb".toList "katze".toList, simpleFact "verb".toList "hunde".toList] := rfl
  have hkatze : (simpleFact "verb".toList "katze".toList).Kept :=
    verbFact_kept (by decide) (by decide) (by decide) (by decide)
  have hhunde : (simpleFact "verb".toList "hunde".toList).Kept :=
    verbFact_kept (by decide) (by decide) (by decide) (by decide)
  refine regularCalls_pair ⟨?_, fun _ h => (by cases h), fun _ h => (by cases h), by simp⟩
    ⟨?_, ?_, ?_, by simp⟩
  · intro fact hfact
    rw [show factsOf (fun _ => false) (factsPath, wordFile ["katze".toList]).2 = _ from hold,
      List.mem_singleton] at hfact
    exact hfact ▸ hkatze
  · intro fact hfact
    rcases List.mem_cons.mp (hnew ▸ hfact) with rfl | hfact
    · exact hkatze
    · exact List.mem_singleton.mp hfact ▸ hhunde
  · rintro prev hprev
    obtain rfl : wordFile ["katze".toList] = prev := Option.some.inj hprev
    decide
  · rintro prev hprev fact hfact key hkey
    obtain rfl : wordFile ["katze".toList] = prev := Option.some.inj hprev
    rw [hold, List.mem_singleton] at hfact
    exact ⟨_, by rw [hnew]; exact List.mem_cons_self, hfact ▸ hkey⟩

/-- The facts with the word in the versions on the disk are found, and nothing else is. -/
def Exact (isSynonym : XmlObj → Bool) (disk : Disk) (events : List Event) (p : Path) : Prop :=
  ∀ d, runEvents HashOrder.insertion isSynonym (events ++ [.prepare p]) (Database.new disk) = .ok d →
    ∀ word, ∃ facts, getFacts HashOrder.insertion isSynonym d.index word = .ok facts ∧
      ∀ fact, fact ∈ facts ↔ ∃ call ∈ (events.foldl Event.diskAfter disk).calls p,
        fact ∈ factsOf isSynonym call.2 ∧ ∃ w ∈ fact.words, lc w.text = lc word.text

/-- What is found for a word, printed. -/
def printed (isSynonym : XmlObj → Bool) (disk : Disk) (events : List Event) (p : Path)
    (word : Word) : Option (List Str) :=
  match runEvents HashOrder.insertion isSynonym (events ++ [.prepare p]) (Database.new disk) with
  | .error _ => none
  | .ok d =>
      match getFacts HashOrder.insertion isSynonym d.index word with
      | .error _ => none
      | .ok facts => some (facts.map XmlObj.printXml)

/-- The facts with the word in the versions on the disk, printed. -/
def expected (isSynonym : XmlObj → Bool) (disk : Disk) (events : List Event) (p : Path)
    (word : Word) : List Str :=
  ((events.foldl Event.diskAfter disk).calls p).flatMap fun call =>
    ((factsOf isSynonym call.2).filter fun fact =>
      fact.words.any (lc ·.text = lc word.text)).map XmlObj.printXml

theorem Exact.mem_printed {isSynonym : XmlObj → Bool} {disk : Disk} {events : List Event}
    {p : Path} (h : Exact isSynonym disk events p) {word : Word} {list : List Str}
    (hlist : printed isSynonym disk events p word = some list) (s : Str) :
    s ∈ list ↔ s ∈ expected isSynonym disk events p word := by
  unfold printed at hlist
  split at hlist
  · cases hlist
  · rename_i d hrun
    obtain ⟨facts, hfacts, hall⟩ := h d hrun word
    rw [hfacts] at hlist
    cases hlist
    simp only [List.mem_map, expected, List.mem_flatMap, List.mem_filter, List.any_eq_true,
      decide_eq_true_eq, hall]
    constructor
    · rintro ⟨fact, ⟨call, hcall, hfact, hword⟩, rfl⟩
      exact ⟨call, hcall, fact, ⟨hfact, hword⟩, rfl⟩
    · rintro ⟨call, hcall, fact, ⟨hfact, hword⟩, rfl⟩
      exact ⟨fact, ⟨call, hcall, hfact, hword⟩, rfl⟩

def katze : Word := ⟨"katze".toList, by decide⟩

def der : Word := ⟨"der".toList, by decide⟩

end Freehal.Grammar2012
