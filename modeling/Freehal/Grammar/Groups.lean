import Freehal.Grammar.Entity
import Mathlib.Data.List.Nodup

/-!
# Grouping by roles

`Entity.toGroups` of `Entity.java` and `entity::to_groups` of `hal2012-grammar2012.cpp`. An entry
carries the place of its leaf in the tree, which neither map keeps. Both maps keep all texts of a
key.
-/

namespace Freehal.Grammar

structure Entry where
  key : Str
  text : Str
  place : List Nat
deriving DecidableEq

/-! ## One node -/

/-- The key that a marker adds. -/
def roleOf (it : Str) : Option Str :=
  if startsWith "v-clause" it then none
  else if startsWith "v-subject" it then some "subjects".toList
  else if startsWith "v-object" it then some "objects".toList
  else if startsWith "v-verb" it && !startsWith "v-verbprefix" it then some "verbs".toList
  else if startsWith "v-verbprefix" it then some "verbprefixes".toList
  else if startsWith "v-adverb" it || startsWith "v-longadverb" it then some "adverbs".toList
  else if startsWith "v-questionword" it then some "questionwords".toList
  else if startsWith "v-extra-after" it then some "extra".toList
  else if startsWith "v-extra-before" it then some "before-adverbs".toList
  else none

/-- The loop over `virt`, on the keys and the prefix. -/
def readMarkers (virt : List Str) (keys : List Str) (keyPrefix : Str) : List Str × Str :=
  virt.foldl (fun s it =>
    if startsWith "v-clause" it then (s.1, it) else (s.1 ++ (roleOf it).toList, s.2))
    (keys, keyPrefix)

/-- The loop over the keys. -/
def putKeys (keyPrefix text : Str) (place : List Nat) : Str → List Str → List Entry
  | _, [] => []
  | last, key :: keys =>
      (if key ≠ last then [⟨keyPrefix ++ '/' :: key, text, place⟩] else [])
        ++ putKeys keyPrefix text place key keys

def firstClause : Str := "v-clause-1".toList

/-! ## The two implementations -/

mutual
/-- The entries that are put, and the list of keys as the call leaves it. -/
def javaToGroups : Entity → List Nat → List Str → Str → List Entry × List Str
  | ⟨_, _, _, virt, text, embed, _⟩, place, keys, keyPrefix =>
      let (keys, keyPrefix) := readMarkers virt keys keyPrefix
      if text ≠ [] then (putKeys keyPrefix text place [] keys, keys)
      else javaToGroupsEmbed embed place 0 keys

def javaToGroupsEmbed : List Entity → List Nat → Nat → List Str → List Entry × List Str
  | [], _, _, keys => ([], keys)
  | e :: embed, place, i, keys =>
      let (pm, keys) := javaToGroups e (place ++ [i]) keys firstClause
      let (pm', keys) := javaToGroupsEmbed embed place (i + 1) keys
      (pm ++ pm', keys)
end

mutual
def cppToGroups : Entity → List Nat → List Str → Str → List Entry
  | ⟨_, _, _, virt, text, embed, _⟩, place, keys, keyPrefix =>
      let (keys, keyPrefix) := readMarkers virt keys keyPrefix
      if text ≠ [] then putKeys keyPrefix text place [] keys
      else cppToGroupsEmbed embed place 0 keys

def cppToGroupsEmbed : List Entity → List Nat → Nat → List Str → List Entry
  | [], _, _, _ => []
  | e :: embed, place, i, keys =>
      cppToGroups e (place ++ [i]) keys firstClause ++ cppToGroupsEmbed embed place (i + 1) keys
end

/-- `toGroups()` -/
def Entity.javaGroups (e : Entity) : List Entry := (javaToGroups e [] [] firstClause).1

/-- `to_groups()` -/
def Entity.cppGroups (e : Entity) : List Entry := cppToGroups e [] [] firstClause

/-! ## Leaves and paths -/

/-- A leaf with the markers of each node from the root to it, and of each node from the root to it
in the order in which the tree is walked through. -/
structure Leaf where
  text : Str
  place : List Nat
  path : List (List Str)
  walked : List (List Str)

mutual
/-- The leaves, which are the nodes with a text, and the markers of the nodes that were walked
through. -/
def leavesFrom : Entity → List Nat → List (List Str) → List (List Str) →
    List Leaf × List (List Str)
  | ⟨_, _, _, virt, text, embed, _⟩, place, path, walked =>
      if text ≠ [] then ([⟨text, place, path ++ [virt], walked ++ [virt]⟩], walked ++ [virt])
      else leavesFromEmbed embed place 0 (path ++ [virt]) (walked ++ [virt])

def leavesFromEmbed : List Entity → List Nat → Nat → List (List Str) → List (List Str) →
    List Leaf × List (List Str)
  | [], _, _, _, walked => ([], walked)
  | e :: embed, place, i, path, walked =>
      let (leaves, walked) := leavesFrom e (place ++ [i]) path walked
      let (leaves', walked) := leavesFromEmbed embed place (i + 1) path walked
      (leaves ++ leaves', walked)
end

def Entity.textLeaves (e : Entity) : List Leaf := (leavesFrom e [] [] []).1

/-- The roles that nodes with these markers carry. -/
def roles (nodes : List (List Str)) : List Str := nodes.flatMap fun virt => virt.filterMap roleOf

/-- The last clause marker of these nodes. -/
def lastClause (nodes : List (List Str)) : Option Str :=
  (nodes.flatMap fun virt => virt.filter (startsWith "v-clause")).getLast?

/-- The nearest clause marker on the path. -/
def Leaf.clause (leaf : Leaf) : Str := (lastClause leaf.path).getD firstClause

/-- The clause marker of the leaf itself. -/
def Leaf.ownClause (leaf : Leaf) : Str := (lastClause leaf.path.getLast?.toList).getD firstClause

/-! ## What grouping should do -/

/-- The leaf is under the roles of its path, with the prefix of its clause, and under nothing else. -/
def FiledByPath (groups : List Entry) (leaf : Leaf) : Prop :=
  ∀ key, ⟨key, leaf.text, leaf.place⟩ ∈ groups ↔
    ∃ role ∈ roles leaf.path, key = leaf.clause ++ '/' :: role

structure GroupsByPath (e : Entity) : Prop where
  java : ∀ leaf ∈ e.textLeaves, FiledByPath e.javaGroups leaf
  cpp : ∀ leaf ∈ e.textLeaves, FiledByPath e.cppGroups leaf
  same : ∀ entry, entry ∈ e.javaGroups ↔ entry ∈ e.cppGroups

/-! ## Reading the markers -/

theorem readMarkers_eq (virt keys : List Str) (keyPrefix : Str) : readMarkers virt keys keyPrefix =
    (keys ++ virt.filterMap roleOf,
      (virt.filter (startsWith "v-clause")).getLast?.getD keyPrefix) := by
  induction virt generalizing keys keyPrefix with
  | nil => simp [readMarkers]
  | cons it virt ih =>
      have hcons : readMarkers (it :: virt) keys keyPrefix
          = if startsWith "v-clause" it then readMarkers virt keys it
            else readMarkers virt (keys ++ (roleOf it).toList) keyPrefix := by
        by_cases h : startsWith "v-clause" it <;> simp [readMarkers, h]
      rw [hcons]
      by_cases h : startsWith "v-clause" it
      · have hrole : roleOf it = none := by rw [roleOf, if_pos h]
        rw [if_pos h, ih, List.filterMap_cons_none hrole, List.filter_cons_of_pos h]
        cases hl : virt.filter (startsWith "v-clause") with
        | nil => rfl
        | cons c cs => simp [List.getLast?_cons]
      · rw [if_neg h, ih, List.filter_cons_of_neg h]
        cases hrole : roleOf it with
        | none => simp [hrole]
        | some role => simp [hrole]

/-- Keys of roles are not empty and have no slash. -/
theorem roleOf_cases {it role : Str} (h : roleOf it = some role) : role ≠ [] ∧ '/' ∉ role := by
  unfold roleOf at h
  repeat' split at h
  all_goals cases h
  all_goals exact ⟨by decide, by decide⟩

theorem roles_cases {nodes : List (List Str)} {role : Str} (h : role ∈ roles nodes) :
    role ≠ [] ∧ '/' ∉ role := by
  obtain ⟨virt, -, hrole⟩ := List.mem_flatMap.mp h
  obtain ⟨it, -, hit⟩ := List.mem_filterMap.mp hrole
  exact roleOf_cases hit

theorem mem_putKeys {keyPrefix text last : Str} {place : List Nat} {keys : List Str}
    {entry : Entry} : entry ∈ putKeys keyPrefix text place last keys →
      ∃ key ∈ keys, entry = ⟨keyPrefix ++ '/' :: key, text, place⟩ := by
  induction keys generalizing last with
  | nil => intro h; cases h
  | cons key keys ih =>
      intro h
      rcases List.mem_append.mp h with h | h
      · by_cases hk : key ≠ last
        · rw [if_pos hk] at h
          exact ⟨key, by simp, List.mem_singleton.mp h⟩
        · rw [if_neg hk] at h
          cases h
      · obtain ⟨k, hk, he⟩ := ih h
        exact ⟨k, by simp [hk], he⟩

/-- A key is put unless it was the last one before. -/
theorem putKeys_mem {keyPrefix text last key : Str} {place : List Nat} {keys : List Str}
    (h : key ∈ keys) : key = last ∨
      ⟨keyPrefix ++ '/' :: key, text, place⟩ ∈ putKeys keyPrefix text place last keys := by
  induction keys generalizing last with
  | nil => cases h
  | cons k keys ih =>
      by_cases hk : key = k
      · subst hk
        by_cases hl : key = last
        · exact Or.inl hl
        · exact Or.inr (List.mem_append_left _ (by rw [if_pos hl]; simp))
      · rcases List.mem_cons.mp h with h | h
        · exact absurd h hk
        · rcases @ih k h with h | h
          · exact absurd h hk
          · exact Or.inr (List.mem_append_right _ h)

/-- What is put for the keys of some nodes. -/
theorem mem_putKeys_roles {keyPrefix text : Str} {place : List Nat} {nodes : List (List Str)}
    {entry : Entry} : entry ∈ putKeys keyPrefix text place [] (roles nodes) ↔
      ∃ role ∈ roles nodes, entry = ⟨keyPrefix ++ '/' :: role, text, place⟩ := by
  constructor
  · exact mem_putKeys
  · rintro ⟨role, hrole, rfl⟩
    exact (putKeys_mem hrole).resolve_left (roles_cases hrole).1

/-! ## The entries of each leaf -/

def Leaf.javaEntries (leaf : Leaf) : List Entry :=
  putKeys leaf.ownClause leaf.text leaf.place [] (roles leaf.walked)

def Leaf.cppEntries (leaf : Leaf) : List Entry :=
  putKeys leaf.ownClause leaf.text leaf.place [] (roles leaf.path)

theorem roles_append (nodes nodes' : List (List Str)) :
    roles (nodes ++ nodes') = roles nodes ++ roles nodes' := by
  simp [roles]

theorem roles_singleton (virt : List Str) : roles [virt] = virt.filterMap roleOf := by
  simp [roles]

theorem lastClause_singleton (virt : List Str) :
    lastClause [virt] = (virt.filter (startsWith "v-clause")).getLast? := by
  simp [lastClause]

mutual
theorem javaToGroups_eq : (e : Entity) → (place : List Nat) → (path walked : List (List Str)) →
    javaToGroups e place (roles walked) firstClause
      = ((leavesFrom e place path walked).1.flatMap Leaf.javaEntries,
        roles (leavesFrom e place path walked).2)
  | ⟨_, _, _, virt, text, embed, _⟩, place, path, walked => by
      simp only [javaToGroups, leavesFrom, readMarkers_eq]
      rw [← roles_singleton, ← roles_append]
      by_cases ht : text ≠ []
      · rw [if_pos ht, if_pos ht]
        simp [Leaf.javaEntries, Leaf.ownClause, lastClause_singleton]
      · rw [if_neg ht, if_neg ht]
        exact javaToGroupsEmbed_eq embed place 0 _ _

theorem javaToGroupsEmbed_eq : (embed : List Entity) → (place : List Nat) → (i : Nat) →
    (path walked : List (List Str)) → javaToGroupsEmbed embed place i (roles walked)
      = ((leavesFromEmbed embed place i path walked).1.flatMap Leaf.javaEntries,
        roles (leavesFromEmbed embed place i path walked).2)
  | [], _, _, _, _ => rfl
  | e :: embed, place, i, path, walked => by
      simp only [javaToGroupsEmbed, leavesFromEmbed]
      rw [javaToGroups_eq e (place ++ [i]) path walked]
      simp only
      rw [javaToGroupsEmbed_eq embed place (i + 1) path, List.flatMap_append]
end

mutual
theorem cppToGroups_eq : (e : Entity) → (place : List Nat) → (path walked : List (List Str)) →
    cppToGroups e place (roles path) firstClause
      = (leavesFrom e place path walked).1.flatMap Leaf.cppEntries
  | ⟨_, _, _, virt, text, embed, _⟩, place, path, walked => by
      simp only [cppToGroups, leavesFrom, readMarkers_eq]
      rw [← roles_singleton, ← roles_append]
      by_cases ht : text ≠ []
      · rw [if_pos ht, if_pos ht]
        simp [Leaf.cppEntries, Leaf.ownClause, lastClause_singleton]
      · rw [if_neg ht, if_neg ht]
        exact cppToGroupsEmbed_eq embed place 0 _ _

theorem cppToGroupsEmbed_eq : (embed : List Entity) → (place : List Nat) → (i : Nat) →
    (path walked : List (List Str)) → cppToGroupsEmbed embed place i (roles path)
      = (leavesFromEmbed embed place i path walked).1.flatMap Leaf.cppEntries
  | [], _, _, _, _ => rfl
  | e :: embed, place, i, path, walked => by
      simp only [cppToGroupsEmbed, leavesFromEmbed]
      rw [cppToGroups_eq e (place ++ [i]) path walked,
        cppToGroupsEmbed_eq embed place (i + 1) path, List.flatMap_append]
end

/-! ## Leaves have different places -/

mutual
theorem leavesFrom_place : (e : Entity) → (place : List Nat) → (path walked : List (List Str)) →
    ((leavesFrom e place path walked).1.map Leaf.place).Nodup ∧
      ∀ leaf ∈ (leavesFrom e place path walked).1, place <+: leaf.place
  | ⟨_, _, _, virt, text, embed, _⟩, place, path, walked => by
      rw [leavesFrom]
      by_cases ht : text ≠ []
      · rw [if_pos ht]
        simp
      · rw [if_neg ht]
        obtain ⟨hnodup, hplace⟩ := leavesFromEmbed_place embed place 0 (path ++ [virt])
          (walked ++ [virt])
        refine ⟨hnodup, fun leaf hl => ?_⟩
        obtain ⟨j, -, hj⟩ := hplace leaf hl
        exact (List.prefix_append place [j]).trans hj

theorem leavesFromEmbed_place : (embed : List Entity) → (place : List Nat) → (i : Nat) →
    (path walked : List (List Str)) →
    ((leavesFromEmbed embed place i path walked).1.map Leaf.place).Nodup ∧
      ∀ leaf ∈ (leavesFromEmbed embed place i path walked).1,
        ∃ j, i ≤ j ∧ place ++ [j] <+: leaf.place
  | [], _, _, _, _ => by simp [leavesFromEmbed]
  | e :: embed, place, i, path, walked => by
      obtain ⟨hnodup, hplace⟩ := leavesFrom_place e (place ++ [i]) path walked
      obtain ⟨hnodup', hplace'⟩ := leavesFromEmbed_place embed place (i + 1) path
        (leavesFrom e (place ++ [i]) path walked).2
      simp only [leavesFromEmbed, List.map_append]
      refine ⟨List.nodup_append.mpr ⟨hnodup, hnodup', ?_⟩, fun leaf hl => ?_⟩
      · intro p hp q hq
        obtain ⟨leaf, hl, rfl⟩ := List.mem_map.mp hp
        obtain ⟨leaf', hl', rfl⟩ := List.mem_map.mp hq
        obtain ⟨j, hj, hpre'⟩ := hplace' leaf' hl'
        intro he
        rw [← he] at hpre'
        have hpre := hplace leaf hl
        have hsame := List.prefix_of_prefix_length_le hpre hpre' (by simp)
        have := List.append_cancel_left (hsame.eq_of_length (by simp))
        simp only [List.cons.injEq, and_true] at this
        omega
      · rcases List.mem_append.mp hl with hl | hl
        · exact ⟨i, Nat.le_refl i, hplace leaf hl⟩
        · obtain ⟨j, hj, hpre⟩ := hplace' leaf hl
          exact ⟨j, by omega, hpre⟩
end

/-- Leaves with one place are one leaf. -/
theorem eq_of_place {e : Entity} {leaf leaf' : Leaf} (h : leaf ∈ e.textLeaves)
    (h' : leaf' ∈ e.textLeaves) (he : leaf.place = leaf'.place) : leaf = leaf' :=
  List.inj_on_of_nodup_map (leavesFrom_place e [] [] []).1 h h' he

/-! ## Paths and walks -/

mutual
theorem leavesFrom_walked : (e : Entity) → (place : List Nat) → (path walked : List (List Str)) →
    path ⊆ walked →
    walked ⊆ (leavesFrom e place path walked).2 ∧
      ∀ leaf ∈ (leavesFrom e place path walked).1, leaf.path ⊆ leaf.walked
  | ⟨_, _, _, virt, text, embed, _⟩, place, path, walked, h => by
      rw [leavesFrom]
      have hsub : path ++ [virt] ⊆ walked ++ [virt] :=
        List.append_subset.mpr ⟨fun x hx => List.mem_append_left _ (h hx), by simp⟩
      by_cases ht : text ≠ []
      · rw [if_pos ht]
        refine ⟨by simp, fun leaf hl => ?_⟩
        rw [List.mem_singleton.mp hl]
        exact hsub
      · rw [if_neg ht]
        obtain ⟨hw, hl⟩ := leavesFromEmbed_walked embed place 0 _ _ hsub
        exact ⟨fun x hx => hw (List.mem_append_left _ hx), hl⟩

theorem leavesFromEmbed_walked : (embed : List Entity) → (place : List Nat) → (i : Nat) →
    (path walked : List (List Str)) → path ⊆ walked →
    walked ⊆ (leavesFromEmbed embed place i path walked).2 ∧
      ∀ leaf ∈ (leavesFromEmbed embed place i path walked).1, leaf.path ⊆ leaf.walked
  | [], _, _, _, _, _ => by simp [leavesFromEmbed]
  | e :: embed, place, i, path, walked, h => by
      obtain ⟨hw, hl⟩ := leavesFrom_walked e (place ++ [i]) path walked h
      obtain ⟨hw', hl'⟩ := leavesFromEmbed_walked embed place (i + 1) path
        (leavesFrom e (place ++ [i]) path walked).2 fun x hx => hw (h hx)
      simp only [leavesFromEmbed]
      refine ⟨fun x hx => hw' (hw hx), fun leaf hleaf => ?_⟩
      rcases List.mem_append.mp hleaf with hleaf | hleaf
      · exact hl leaf hleaf
      · exact hl' leaf hleaf
end

theorem roles_subset {nodes nodes' : List (List Str)} (h : nodes ⊆ nodes') :
    roles nodes ⊆ roles nodes' := by
  intro role hrole
  obtain ⟨virt, hvirt, hr⟩ := List.mem_flatMap.mp hrole
  exact List.mem_flatMap.mpr ⟨virt, h hvirt, hr⟩

theorem path_subset_walked {e : Entity} {leaf : Leaf} (h : leaf ∈ e.textLeaves) :
    roles leaf.path ⊆ roles leaf.walked :=
  roles_subset ((leavesFrom_walked e [] [] [] (fun _ h => h)).2 leaf h)

/-! ## When grouping follows the paths -/

theorem mem_javaGroups {e : Entity} {entry : Entry} : entry ∈ e.javaGroups ↔
    ∃ leaf ∈ e.textLeaves, ∃ role ∈ roles leaf.walked,
      entry = ⟨leaf.ownClause ++ '/' :: role, leaf.text, leaf.place⟩ := by
  have h := javaToGroups_eq e [] [] []
  rw [Entity.javaGroups, show ([] : List Str) = roles [] from rfl, h, List.mem_flatMap]
  simp only [Leaf.javaEntries, mem_putKeys_roles, Entity.textLeaves]

theorem mem_cppGroups {e : Entity} {entry : Entry} : entry ∈ e.cppGroups ↔
    ∃ leaf ∈ e.textLeaves, ∃ role ∈ roles leaf.path,
      entry = ⟨leaf.ownClause ++ '/' :: role, leaf.text, leaf.place⟩ := by
  have h := cppToGroups_eq e [] [] []
  rw [Entity.cppGroups, show ([] : List Str) = roles [] from rfl, h, List.mem_flatMap]
  simp only [Leaf.cppEntries, mem_putKeys_roles, Entity.textLeaves]

/-- The entries of one leaf among those of all leaves. -/
theorem exists_entry_iff {e : Entity} {leaf : Leaf} (h : leaf ∈ e.textLeaves)
    (rolesOf : Leaf → List Str) (key : Str) :
    (∃ leaf' ∈ e.textLeaves, ∃ role ∈ rolesOf leaf', (⟨key, leaf.text, leaf.place⟩ : Entry) =
        ⟨leaf'.ownClause ++ '/' :: role, leaf'.text, leaf'.place⟩) ↔
      ∃ role ∈ rolesOf leaf, key = leaf.ownClause ++ '/' :: role := by
  constructor
  · rintro ⟨leaf', h', role, hrole, he⟩
    obtain ⟨rfl, -, hplace⟩ := Entry.mk.inj he
    obtain rfl := eq_of_place h h' hplace
    exact ⟨role, hrole, rfl⟩
  · rintro ⟨role, hrole, rfl⟩
    exact ⟨leaf, h, role, hrole, rfl⟩

theorem filed_java {e : Entity} {leaf : Leaf} (h : leaf ∈ e.textLeaves) (key : Str) :
    ⟨key, leaf.text, leaf.place⟩ ∈ e.javaGroups ↔
      ∃ role ∈ roles leaf.walked, key = leaf.ownClause ++ '/' :: role :=
  mem_javaGroups.trans (exists_entry_iff h (fun leaf => roles leaf.walked) key)

theorem filed_cpp {e : Entity} {leaf : Leaf} (h : leaf ∈ e.textLeaves) (key : Str) :
    ⟨key, leaf.text, leaf.place⟩ ∈ e.cppGroups ↔
      ∃ role ∈ roles leaf.path, key = leaf.ownClause ++ '/' :: role :=
  mem_cppGroups.trans (exists_entry_iff h (fun leaf => roles leaf.path) key)

/-- Only roles of the path were seen on the walk to the leaf, and if there are any, the nearest
clause marker is the leaf's own, or there is none but the first. -/
def Leaf.Regular (leaf : Leaf) : Prop :=
  (∀ role ∈ roles leaf.walked, role ∈ roles leaf.path) ∧
    (roles leaf.path ≠ [] → leaf.clause = leaf.ownClause)

/-- A subject, and a leaf without a role behind it. -/
def subjectAndRest : Entity :=
  { symbol := "s-all".toList
    embed := [{ data := "d-noun".toList, virt := ["v-subject".toList], text := "katze".toList },
      { data := "d-other".toList, text := "schnell".toList }] }

end Freehal.Grammar
