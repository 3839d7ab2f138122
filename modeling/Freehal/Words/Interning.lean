import Freehal.Lib.Fold
import Freehal.Words.Net

/-!
# Interning

A bucket holds the addresses of its words in the order of allocation, and there is room for them.
-/

namespace Freehal.Words

open Lib (Block)

variable {net net' : Net} {words : List WordObject} {name : Name} {f : Flist} {addresses : List Nat}
  {i k : Int} {m : Memory}

/-! ## The indices -/

theorem mem_upTo {first last j : Int} : j ∈ upTo first last ↔ first ≤ j ∧ j ≤ last := by
  simp only [upTo, List.mem_map, List.mem_range]
  constructor
  · rintro ⟨d, hd, rfl⟩
    omega
  · intro h
    exact ⟨(j - first).toNat, by omega, by omega⟩

/-- An index that the macro gives. -/
def InNet (i : Int) : Prop := 1 ≤ i ∧ i ≤ 27

theorem inNet_n (ch : Int) : InNet (n ch) := by
  have ha : code 'a' = 97 := rfl
  have hz : code 'z' = 122 := rfl
  simp only [InNet, n, wrong, ha, hz]
  split
  · omega
  · split <;> omega

theorem inNet_wrong : InNet wrong := ⟨by decide, by decide⟩

theorem inNet_row (name : Name) : InNet (row name) := by
  unfold row
  split
  · exact inNet_n _
  · exact inNet_wrong

theorem inNet_column (name : Name) : InNet (column name) := by
  unfold column
  split
  · exact inNet_n _
  · exact inNet_wrong

theorem mem_diskIndices (h : InNet i) : i ∈ diskIndices := by
  have ha : n (code 'a') = 1 := rfl
  have hz : n (code 'z') = 26 := rfl
  have hw : wrong = 27 := rfl
  obtain ⟨h1, h27⟩ := h
  rw [diskIndices, ha, hz, hw, List.mem_append, mem_upTo, List.mem_singleton]
  omega

theorem mem_ramIndices (h : InNet i) : i ∈ ramIndices := by
  have hdisk := mem_diskIndices h
  rw [diskIndices, List.mem_append] at hdisk
  rw [ramIndices, List.mem_append, List.mem_append]
  rcases hdisk with hletter | hwrong
  · exact Or.inl (Or.inl hletter)
  · exact Or.inr hwrong

theorem lt_width_of_mem_ramIndices : ∀ i ∈ ramIndices, 0 ≤ i ∧ i < width := by decide

theorem lt_width_of_mem_diskIndices : ∀ i ∈ diskIndices, 0 ≤ i ∧ i < width := by decide

/-! ## Allocation -/

/-- A loop that writes the same pointer at each index. -/
theorem foldlM_write {α : Type} {value : α} {indices : List Int} {start : Block α}
    (hindices : ∀ i ∈ indices, 0 ≤ i ∧ i < start.size) :
    ∃ b, indices.foldlM (fun (b : Block α) i => b.write i value) start = some b ∧
      ∀ i ∈ indices, b.read i = some value := by
  have hloop : ∃ b, indices.foldlM (fun (b : Block α) i => b.write i value) start = some b ∧
      b.size = start.size ∧ ∀ i ∈ indices, b.read i = some value := by
    apply @Lib.foldlM_total _ _ fun done (b : Block α) =>
      b.size = start.size ∧ ∀ i ∈ done, b.read i = some value
    · exact ⟨rfl, by simp⟩
    · rintro done i b hi ⟨hsize, hread⟩
      obtain ⟨h0, hlt⟩ := hindices i hi
      obtain ⟨next, hwrite⟩ := @Block.exists_write _ b value i h0 (by rwa [hsize])
      refine ⟨next, hwrite, (Block.size_write hwrite).trans hsize, ?_⟩
      intro j hj
      by_cases heq : j = i
      · rw [heq, Block.read_write_self hwrite]
      · rw [Block.read_write_of_ne hwrite heq]
        exact hread j (by simpa [heq] using hj)
  obtain ⟨b, hb, -, hread⟩ := hloop
  exact ⟨b, hb, hread⟩

/-- All buckets of the net are there, and they are empty. -/
theorem beginNet_eq {indices : List Int} (hlt : ∀ i ∈ indices, 0 ≤ i ∧ i < width)
    (hmem : ∀ i, InNet i → i ∈ indices) :
    ∃ net, beginNet indices = some net ∧
      ∀ i k, InNet i → InNet k → net.flist i k = some ⟨none, 0, 0⟩ := by
  obtain ⟨row, hrow, hcells⟩ := @foldlM_write _ (some (⟨none, 0, 0⟩ : Flist)) indices
    (Block.calloc width none) (by rwa [Block.size_calloc])
  obtain ⟨net, hnet, hrows⟩ := @foldlM_write _ (some row) indices (Block.calloc width none)
    (by rwa [Block.size_calloc])
  refine ⟨net, ?_, ?_⟩
  · rw [beginNet, beginRow, hrow]
    exact hnet
  · intro i k hi hk
    rw [Net.flist, hrows i (hmem i hi)]
    show row.read k >>= _ = _
    rw [hcells k (hmem k hk)]
    rfl

/-! ## One bucket -/

/-- The bucket holds the addresses, and the list has as many slots as it says and one more. -/
structure Bucket (f : Flist) (addresses : List Nat) : Prop where
  size : f.size = addresses.length
  fits : f.size ≤ f.allocatedUntil
  empty : addresses = [] → f.list = none
  full : addresses ≠ [] → ∃ list, f.list = some list ∧ list.size = f.allocatedUntil + 1 ∧
    ∀ g < addresses.length, list.read (g : Nat) = some addresses[g]?

theorem bucket_nil : Bucket ⟨none, 0, 0⟩ [] where
  size := rfl
  fits := Nat.le_refl 0
  empty _ := rfl
  full h := absurd rfl h

/-- There is room in the list when the next word is written. -/
theorem Bucket.grown (h : Bucket f addresses) : ∃ list, f.grown.list = some list ∧
    list.size = f.grown.allocatedUntil + 1 ∧ f.size + 1 ≤ f.grown.allocatedUntil ∧
      ∀ g < addresses.length, list.read (g : Nat) = some addresses[g]? := by
  have hsize := h.size
  unfold Flist.grown
  by_cases hzero : f.size = 0
  · rw [if_pos hzero]
    have hlength : addresses.length = 0 := by omega
    exact ⟨_, rfl, Block.size_calloc, by simp [hzero], fun g hg => absurd hg (by omega)⟩
  · have hne : addresses ≠ [] := by
      rintro rfl
      exact hzero hsize
    obtain ⟨list, hlist, hslots, hread⟩ := h.full hne
    rw [if_neg hzero]
    by_cases hfull : f.allocatedUntil ≤ f.size
    · have hle : list.size ≤ f.allocatedUntil + 10 + 1 := by omega
      rw [if_pos hfull, hlist]
      refine ⟨_, rfl, Block.size_realloc hle, ?_, ?_⟩
      · simp only
        have := h.fits
        omega
      · intro g hg
        rw [Option.getD_some, Block.read_realloc hle, hread g hg]
    · rw [if_neg hfull]
      exact ⟨list, hlist, hslots, by omega, hread⟩

/-- Another word. -/
theorem Bucket.push (h : Bucket f addresses) (address : Nat) : ∃ list list',
    f.grown.list = some list ∧ list.write f.size (some address) = some list' ∧
      Bucket { f.grown with list := some list', size := f.size + 1 } (addresses ++ [address]) := by
  obtain ⟨list, hlist, hslots, hroom, hread⟩ := h.grown
  have hsize := h.size
  obtain ⟨list', hwrite⟩ := @Block.exists_write _ list (some address) (f.size : Nat) (by omega)
    (by omega)
  refine ⟨list, list', hlist, hwrite, by simp [hsize], hroom, by simp, ?_⟩
  refine fun _ => ⟨list', rfl, (Block.size_write hwrite).trans hslots, ?_⟩
  intro g hg
  rw [List.length_append, List.length_singleton] at hg
  by_cases hlast : g = addresses.length
  · rw [hlast, ← hsize, Block.read_write_self hwrite, hsize, List.getElem?_concat_length]
  · rw [Block.read_write_of_ne hwrite (by omega), hread g (by omega),
      List.getElem?_append_left (by omega)]

/-! ## The net -/

/-- The words of a bucket, by address. -/
def addressesAt (words : List WordObject) (i k : Int) : List Nat :=
  (List.range words.length).filter fun a =>
    words[a]?.any fun word => row word.name = i && column word.name = k

/-- The net and the words that it holds. -/
structure Holds (net : Net) (words : List WordObject) : Prop where
  bucket : ∀ i k, InNet i → InNet k →
    ∃ f, net.flist i k = some f ∧ Bucket f (addressesAt words i k)
  words : ∀ word ∈ words, word.name ≠ [] ∧ word.length = word.name.length

theorem addressesAt_append (word : WordObject) (i k : Int) :
    addressesAt (words ++ [word]) i k = addressesAt words i k ++
      if row word.name = i ∧ column word.name = k then [words.length] else [] := by
  have hold : (List.range words.length).filter (fun a => (words ++ [word])[a]?.any fun word =>
      row word.name = i && column word.name = k) = addressesAt words i k := by
    apply List.filter_congr
    intro a ha
    rw [List.getElem?_append_left (List.mem_range.mp ha)]
  rw [addressesAt, List.length_append, List.length_singleton, List.range_succ, List.filter_append,
    hold]
  congr 1
  by_cases hword : row word.name = i ∧ column word.name = k
  · simp [hword]
  · simp [hword]

theorem exists_write_of_read {α : Type} {b : Block α} {j : Int} {x : α} (h : b.read j = some x)
    (y : α) : ∃ c, b.write j y = some c := by
  have h0 : 0 ≤ j := by
    by_contra hneg
    rw [Block.read_neg (by omega)] at h
    cases h
  have hlt : j < b.size := by
    by_contra hout
    rw [Block.read_of_size_le (by omega)] at h
    cases h
  exact Block.exists_write h0 hlt

/-- One bucket is replaced, and the others stay. -/
theorem setFlist_eq (h : net.flist i k = some f) (f' : Flist) : ∃ net', net.setFlist i k f' = some net' ∧
    net'.flist i k = some f' ∧
      ∀ i' k', ¬ (i' = i ∧ k' = k) → net'.flist i' k' = net.flist i' k' := by
  simp only [Net.flist, Option.bind_eq_bind, Option.bind_eq_some_iff] at h
  obtain ⟨_, hrow, row, rfl, _, hcell, rfl⟩ := h
  obtain ⟨row', hwrite⟩ := exists_write_of_read hcell (some f')
  obtain ⟨net', hwrite'⟩ := exists_write_of_read hrow (some row')
  refine ⟨net', ?_, ?_, ?_⟩
  · simp [Net.setFlist, hrow, hwrite, hwrite']
  · simp [Net.flist, Block.read_write_self hwrite', Block.read_write_self hwrite]
  · intro i' k' hne
    by_cases hi : i' = i
    · subst hi
      have hk : k' ≠ k := fun hk => hne ⟨rfl, hk⟩
      simp [Net.flist, Block.read_write_self hwrite', Block.read_write_of_ne hwrite hk, hrow]
    · simp [Net.flist, Block.read_write_of_ne hwrite' hi]

theorem Holds.insertWord (h : Holds net words) (hname : name ≠ []) : ∃ net',
    insertWord net words.length name = some net' ∧ Holds net' (words ++ [⟨name, name.length⟩]) := by
  obtain ⟨f, hf, hbucket⟩ := h.bucket _ _ (inNet_row name) (inNet_column name)
  obtain ⟨list, list', hlist, hwrite, hpush⟩ := hbucket.push words.length
  obtain ⟨net', hset, hself, hother⟩ :=
    setFlist_eq hf { f.grown with list := some list', size := f.size + 1 }
  refine ⟨net', ?_, ?_, ?_⟩
  · simp [Words.insertWord, hf, hlist, hwrite, hset]
  · intro i k hi hk
    rw [addressesAt_append]
    by_cases heq : row name = i ∧ column name = k
    · obtain ⟨rfl, rfl⟩ := heq
      exact ⟨_, hself, by simpa using hpush⟩
    · obtain ⟨f', hf', hbucket'⟩ := h.bucket i k hi hk
      refine ⟨f', ?_, by simpa [heq] using hbucket'⟩
      rw [hother i k fun hand => heq ⟨hand.1.symm, hand.2.symm⟩, hf']
  · intro word hword
    rcases List.mem_append.mp hword with hword | hword
    · exact h.words word hword
    · rw [List.mem_singleton.mp hword]
      exact ⟨hname, rfl⟩

end Freehal.Words
