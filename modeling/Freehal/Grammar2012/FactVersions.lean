import Freehal.Grammar2012.FactFiles

/-!
# The index of facts over the versions of its files

What the index and the metadata hold after any sequence of edits, restarts and preparations.
-/

namespace Freehal.Grammar2012

open Lib (HashMap HashOrder)

variable {ord : HashOrder} {isSynonym : XmlObj → Bool}

/-! ## Versions -/

/-- The version of a path in the last call for it. -/
def lastVersion (calls : List Call) (p : Path) : Option Str :=
  ((calls.filter (·.1 = p)).getLast?).map (·.2)

theorem lastVersion_concat (calls : List Call) (call : Call) (p : Path) :
    lastVersion (calls ++ [call]) p =
      if call.1 = p then some call.2 else lastVersion calls p := by
  rw [lastVersion, List.filter_append]
  by_cases hp : call.1 = p
  · rw [if_pos hp, List.filter_cons_of_pos (by simpa using hp), List.filter_nil,
      List.getLast?_concat]
    rfl
  · rw [if_neg hp, List.filter_cons_of_neg (by simpa using hp), List.filter_nil, List.append_nil]
    rfl

theorem exists_mem_of_lastVersion {calls : List Call} {p : Path} {contents : Str}
    (h : lastVersion calls p = some contents) : (p, contents) ∈ calls := by
  obtain ⟨call, hcall, rfl⟩ := Option.map_eq_some_iff.mp h
  obtain ⟨hmem, hp⟩ := List.mem_filter.mp (List.mem_of_getLast? hcall)
  rw [decide_eq_true_eq] at hp
  rw [← hp]
  exact hmem

/-- The facts are read as they were printed. A new version has another size and keeps the keys of
the version before, and no other path has the same base name. -/
structure Regular (isSynonym : XmlObj → Bool) (before : List Call) (call : Call) : Prop where
  kept : ∀ fact ∈ factsOf isSynonym call.2, fact.Kept
  size : ∀ prev, lastVersion before call.1 = some prev → prev.length = call.2.length →
    prev = call.2
  keys : ∀ prev, lastVersion before call.1 = some prev → ∀ fact ∈ factsOf isSynonym prev,
    ∀ key ∈ factKeys fact, ∃ fact' ∈ factsOf isSynonym call.2, key ∈ factKeys fact'
  names : ∀ other ∈ before, filename other.1 = filename call.1 → other.1 = call.1

/-- Every call is regular after those before it. -/
def RegularCalls (isSynonym : XmlObj → Bool) (calls : List Call) : Prop :=
  ∀ before call after, calls = before ++ call :: after → Regular isSynonym before call

/-! ## The invariant -/

/-- What the metadata and the index hold after some calls. -/
structure Stored (isSynonym : XmlObj → Bool) (calls : List Call) (files : HashMap Path Nat)
    (index : DiskIndex) : Prop where
  sizes : ∀ p, files.get p = (lastVersion calls p).map List.length
  kept : ∀ p contents, lastVersion calls p = some contents →
    ∀ fact ∈ factsOf isSynonym contents, fact.Kept
  lists : ∀ p contents, lastVersion calls p = some contents → ∀ key,
    Prints (factsOf isSynonym contents) key (((index key).get (filename p)).getD [])
  names : ∀ key name list, (index key).get name = some list →
    ∃ p contents, lastVersion calls p = some contents ∧ filename p = name
  distinct : ∀ p p' contents contents', lastVersion calls p = some contents →
    lastVersion calls p' = some contents' → filename p = filename p' → p = p'
  unique : ∀ key, (index key).Unique

theorem stored_nil : Stored isSynonym [] [] fun _ => [] where
  sizes _ := rfl
  kept _ _ h := by cases h
  lists _ _ h := by cases h
  names _ _ _ h := by cases h
  distinct _ _ _ _ h := by cases h
  unique _ := HashMap.Unique.nil

/-- What reading a file gives. -/
theorem readXmlFactFile_eq {name contents : Str} {idb : IndexDb}
    (h : readXmlFactFile isSynonym name contents = .ok idb) :
    idb.Indexed ∧ idb.uniquefacts = factsOf isSynonym contents ∧
      (contents.length = 0 ∧ idb.index3chars = [] ∨ idb.filename = name ∧ idb.complete = true) := by
  unfold readXmlFactFile at h
  by_cases hlen : contents.length = 0
  · rw [if_pos hlen] at h
    cases h
    exact ⟨indexed_new _ _, by rw [factsOf, if_pos hlen]; rfl, Or.inl ⟨hlen, rfl⟩⟩
  · rw [if_neg hlen, IndexDb.readfacts] at h
    cases hfacts : halxmlReadfacts (halxmlOrdertags contents) with
    | error e =>
        rw [hfacts] at h
        cases h
    | ok facts =>
        rw [hfacts] at h
        cases h
        obtain ⟨h1, h2, h3⟩ := @IndexDb.foldl_insertFact isSynonym
          { IndexDb.new with filename := name, complete := true } facts
        refine ⟨IndexDb.indexed_foldl (indexed_new name true) facts, ?_, Or.inr ⟨h2, h3⟩⟩
        rw [h1, factsOf, if_neg hlen, hfacts]
        rfl

theorem prints_nil {facts : List XmlObj} {key : Str} : Prints facts key [] ↔
    ∀ fact ∈ facts, key ∉ factKeys fact := by
  constructor
  · intro h fact hfact hkey
    have := (h fact.printXml).mpr ⟨fact, hfact, hkey, rfl⟩
    cases this
  · intro h s
    refine ⟨fun hs => (by cases hs), ?_⟩
    rintro ⟨fact, hfact, hkey, -⟩
    exact absurd hkey (h fact hfact)

/-- The list of a key that no fact has is empty. -/
theorem Prints.eq_nil {facts : List XmlObj} {key : Str} {list : List Str}
    (h : Prints facts key list) (hall : ∀ fact ∈ facts, key ∉ factKeys fact) : list = [] := by
  rw [List.eq_nil_iff_forall_not_mem]
  intro s hs
  obtain ⟨fact, hfact, hkey, -⟩ := (h s).mp hs
  exact hall fact hfact hkey

/-- Under a key that no fact of the new version has, nothing is stored for the path. -/
theorem Stored.list_eq_nil {calls : List Call} {files : HashMap Path Nat} {index : DiskIndex}
    {call : Call} (h : Stored isSynonym calls files index) (hcall : Regular isSynonym calls call)
    {key : Str} (hall : ∀ fact ∈ factsOf isSynonym call.2, key ∉ factKeys fact) :
    ((index key).get (filename call.1)).getD [] = [] := by
  cases hprev : lastVersion calls call.1 with
  | some prev =>
      refine (h.lists call.1 prev hprev key).eq_nil fun fact hfact hkey => ?_
      obtain ⟨fact', hfact', hkey'⟩ := hcall.keys prev hprev fact hfact key hkey
      exact hall fact' hfact' hkey'
  | none =>
      cases hget : (index key).get (filename call.1) with
      | none => rfl
      | some list =>
          obtain ⟨p, contents, hp, hname⟩ := h.names key _ list hget
          have hsame : p = call.1 := hcall.names _ (exists_mem_of_lastVersion hp) hname
          rw [hsame, hprev] at hp
          cases hp

/-- The files of a key after a file was read and stored. -/
theorem Stored.toDisk {calls : List Call} {files : HashMap Path Nat} {index : DiskIndex}
    {call : Call} {idb : IndexDb} (h : Stored isSynonym calls files index)
    (hcall : Regular isSynonym calls call)
    (hread : readXmlFactFile isSynonym (filename call.1) call.2 = .ok idb) (key : Str) :
    Prints (factsOf isSynonym call.2) key
        (((idb.toDisk ord index key).get (filename call.1)).getD []) ∧
      (∀ name, name ≠ filename call.1 →
        (idb.toDisk ord index key).get name = (index key).get name) ∧
      (idb.toDisk ord index key).Unique := by
  obtain ⟨hindexed, hfacts, ⟨hlen, hnil⟩ | ⟨hname, hcomplete⟩⟩ := readXmlFactFile_eq hread
  · have hsame : idb.toDisk ord index = index := by
      rw [IndexDb.toDisk, hnil, List.perm_nil.mp (ord.perm [])]
      rfl
    have hempty : factsOf isSynonym call.2 = [] := if_pos hlen
    rw [hsame, h.list_eq_nil hcall (by simp [hempty]), hempty]
    exact ⟨prints_nil.mpr (by simp), fun _ _ => rfl, h.unique key⟩
  · obtain ⟨hin, hout, hother, hunique⟩ := @IndexDb.Indexed.toDisk ord _ hindexed hcomplete index key
    rw [hfacts, hname] at hin hout
    rw [hname] at hother
    refine ⟨?_, hother, hunique (h.unique key)⟩
    by_cases hkey : ∃ fact ∈ factsOf isSynonym call.2, key ∈ factKeys fact
    · obtain ⟨list, hlist, hprints⟩ := hin hkey
      rw [hlist]
      exact hprints
    · have hall : ∀ fact ∈ factsOf isSynonym call.2, key ∉ factKeys fact :=
        fun fact hfact hk => hkey ⟨fact, hfact, hk⟩
      rw [hout hall, h.list_eq_nil hcall hall]
      exact prints_nil.mpr hall

/-- What the index holds for the paths after a file was read and stored. -/
theorem Stored.store {calls : List Call} {d : Database} {call : Call} {idb : IndexDb}
    (h : Stored isSynonym calls d.files d.index) (hcall : Regular isSynonym calls call)
    (hread : readXmlFactFile isSynonym (filename call.1) call.2 = .ok idb) :
    Stored isSynonym (calls ++ [call]) (d.files.put call.1 call.2.length)
      (idb.toDisk ord d.index) := by
  have hindex := @Stored.toDisk ord _ _ _ _ _ _ h hcall hread
  have hversion : ∀ {p contents}, lastVersion (calls ++ [call]) p = some contents →
      p = call.1 ∧ contents = call.2 ∨ p ≠ call.1 ∧ lastVersion calls p = some contents := by
    intro p contents hp
    rw [lastVersion_concat] at hp
    split at hp
    · rename_i hc
      cases hp
      exact Or.inl ⟨hc.symm, rfl⟩
    · rename_i hc
      exact Or.inr ⟨Ne.symm hc, hp⟩
  have hothers : ∀ {p contents}, p ≠ call.1 → lastVersion calls p = some contents →
      filename p ≠ filename call.1 := fun hne hp hname =>
    hne (hcall.names _ (exists_mem_of_lastVersion hp) hname)
  refine ⟨fun p => ?_, fun p contents hp => ?_, fun p contents hp key => ?_,
    fun key name list hget => ?_, fun p p' contents contents' hp hp' hname => ?_,
    fun key => (hindex key).2.2⟩
  · rw [HashMap.get_put, lastVersion_concat]
    by_cases hp : p = call.1
    · rw [if_pos hp, if_pos hp.symm]
      rfl
    · rw [if_neg hp, if_neg (Ne.symm hp)]
      exact h.sizes p
  · rcases hversion hp with ⟨-, rfl⟩ | ⟨-, hp⟩
    · exact hcall.kept
    · exact h.kept p contents hp
  · rcases hversion hp with ⟨rfl, rfl⟩ | ⟨hne, hp⟩
    · exact (hindex key).1
    · rw [(hindex key).2.1 _ (hothers hne hp)]
      exact h.lists p contents hp key
  · by_cases hname : name = filename call.1
    · exact ⟨call.1, call.2, by rw [lastVersion_concat, if_pos rfl], hname.symm⟩
    · rw [(hindex key).2.1 name hname] at hget
      obtain ⟨p, contents, hp, rfl⟩ := h.names key name list hget
      refine ⟨p, contents, ?_, rfl⟩
      rw [lastVersion_concat, if_neg, hp]
      rintro rfl
      exact hname rfl
  · rcases hversion hp with ⟨rfl, -⟩ | ⟨hne, hp⟩
    · rcases hversion hp' with ⟨rfl, -⟩ | ⟨hne', hp'⟩
      · rfl
      · exact absurd hname.symm (hothers hne' hp')
    · rcases hversion hp' with ⟨rfl, -⟩ | ⟨hne', hp'⟩
      · exact absurd hname (hothers hne hp)
      · exact h.distinct p p' contents contents' hp hp' hname

/-- A call of `prepare` for a file. -/
theorem Stored.prepareFile {calls : List Call} {d d' : Database} {call : Call}
    (h : Stored isSynonym calls d.files d.index) (hcall : Regular isSynonym calls call)
    (hstep : d.prepareFile ord isSynonym call = .ok d') :
    Stored isSynonym (calls ++ [call]) d'.files d'.index ∧ d'.disk = d.disk := by
  unfold Database.prepareFile at hstep
  split at hstep
  · rename_i hsize
    cases hstep
    have hversion : lastVersion calls call.1 = some call.2 := by
      rw [h.sizes, Option.map_eq_some_iff] at hsize
      obtain ⟨prev, hprev, hlen⟩ := hsize
      rw [hprev, hcall.size prev hprev hlen]
    have hsame : ∀ p, lastVersion (calls ++ [call]) p = lastVersion calls p := by
      intro p
      rw [lastVersion_concat]
      split
      · rename_i hp
        rw [← hp, hversion]
      · rfl
    refine ⟨⟨?_, ?_, ?_, ?_, ?_, h.unique⟩, rfl⟩
    · simpa only [hsame] using h.sizes
    · simpa only [hsame] using h.kept
    · simpa only [hsame] using h.lists
    · simpa only [hsame] using h.names
    · simpa only [hsame] using h.distinct
  · cases hread : readXmlFactFile isSynonym (filename call.1) call.2 with
    | error e =>
        rw [hread] at hstep
        cases hstep
    | ok idb =>
        rw [hread] at hstep
        cases hstep
        exact ⟨h.store hcall hread, rfl⟩

/-! ## Runs -/

/-- The files that are prepared in a history, with the version that is found. -/
def callsFrom : Disk → List Event → List Call
  | _, [] => []
  | _, .edit disk :: events => callsFrom disk events
  | disk, .restart :: events => callsFrom disk events
  | disk, .prepare p :: events => disk.calls p ++ callsFrom disk events

/-- The disk after an event, which only an edit changes. -/
def Event.diskAfter (disk : Disk) (event : Event) : Disk :=
  match event with
  | .edit disk' => disk'
  | _ => disk

theorem callsFrom_cons (disk : Disk) (event : Event) (events : List Event) :
    callsFrom disk (event :: events) =
      callsFrom disk [event] ++ callsFrom (Event.diskAfter disk event) events := by
  cases event with
  | edit disk' => rfl
  | restart => rfl
  | prepare p => simp [callsFrom, Event.diskAfter]

theorem RegularCalls.split {calls more : List Call} (h : RegularCalls isSynonym (calls ++ more)) :
    RegularCalls isSynonym calls := by
  rintro before call after rfl
  exact h before call (after ++ more) (by simp)

theorem Stored.foldlM {calls more : List Call} {d d' : Database}
    (h : Stored isSynonym calls d.files d.index) (hcalls : RegularCalls isSynonym (calls ++ more))
    (hrun : more.foldlM (Database.prepareFile ord isSynonym) d = .ok d') :
    Stored isSynonym (calls ++ more) d'.files d'.index ∧ d'.disk = d.disk := by
  induction more generalizing calls d with
  | nil =>
      cases hrun
      rw [List.append_nil]
      exact ⟨h, rfl⟩
  | cons call more ih =>
      rw [List.foldlM_cons] at hrun
      cases hstep : d.prepareFile ord isSynonym call with
      | error e =>
          rw [hstep] at hrun
          cases hrun
      | ok d₁ =>
          rw [hstep] at hrun
          obtain ⟨hstored, hdisk⟩ := h.prepareFile (hcalls calls call more rfl) hstep
          have hassoc : calls ++ call :: more = (calls ++ [call]) ++ more := by simp
          rw [hassoc] at hcalls ⊢
          rw [← hdisk]
          exact ih hstored hcalls hrun

/-- A step of a history. What `suspend` wrote is what the database holds. -/
theorem Stored.step {calls : List Call} {d d' : Database} {event : Event}
    (h : Stored isSynonym calls d.files d.index) (hsaved : d.saved = d.files)
    (hcalls : RegularCalls isSynonym (calls ++ callsFrom d.disk [event]))
    (hstep : d.step ord isSynonym event = .ok d') :
    Stored isSynonym (calls ++ callsFrom d.disk [event]) d'.files d'.index ∧
      d'.saved = d'.files ∧ d'.disk = Event.diskAfter d.disk event := by
  cases event with
  | edit disk =>
      cases hstep
      refine ⟨?_, hsaved, rfl⟩
      simpa [callsFrom] using h
  | restart =>
      cases hstep
      refine ⟨?_, rfl, rfl⟩
      simpa [callsFrom, hsaved] using h
  | prepare p =>
      simp only [callsFrom, List.append_nil] at hcalls ⊢
      rw [Database.step, Database.prepare] at hstep
      cases hrun : (d.disk.calls p).foldlM (Database.prepareFile ord isSynonym) d with
      | error e =>
          rw [hrun] at hstep
          cases hstep
      | ok d₁ =>
          rw [hrun] at hstep
          cases hstep
          obtain ⟨hstored, hdisk⟩ := h.foldlM hcalls hrun
          exact ⟨hstored, rfl, hdisk⟩

theorem Stored.run {calls : List Call} {d d' : Database} {events : List Event}
    (h : Stored isSynonym calls d.files d.index) (hsaved : d.saved = d.files)
    (hcalls : RegularCalls isSynonym (calls ++ callsFrom d.disk events))
    (hrun : runEvents ord isSynonym events d = .ok d') :
    Stored isSynonym (calls ++ callsFrom d.disk events) d'.files d'.index ∧
      d'.disk = events.foldl Event.diskAfter d.disk := by
  induction events generalizing calls d with
  | nil =>
      cases hrun
      exact ⟨by simpa [callsFrom] using h, rfl⟩
  | cons event events ih =>
      rw [runEvents, List.foldlM_cons] at hrun
      cases hstep : d.step ord isSynonym event with
      | error e =>
          rw [hstep] at hrun
          cases hrun
      | ok d₁ =>
          rw [hstep] at hrun
          rw [callsFrom_cons, ← List.append_assoc] at hcalls ⊢
          obtain ⟨hstored, hsaved₁, hdisk⟩ := h.step hsaved hcalls.split hstep
          rw [List.foldl_cons]
          rw [← hdisk] at hcalls ⊢
          exact ih hstored hsaved₁ hcalls hrun

end Freehal.Grammar2012
