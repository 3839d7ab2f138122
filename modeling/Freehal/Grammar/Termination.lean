import Freehal.Grammar.Weights

/-!
# Termination of the expansion

A symbol without markers passes its order on to what replaces it, so the symbols of the graph of
references are the names without orders. An expansion of an entry with symbols to be replaced is
lighter than the entry.
-/

namespace Freehal.Grammar
open Lib

/-! ## Expanding an entry -/

/-- What an expansion of the elements that were read is. -/
structure Lighter (length : Nat) (rank : Str → Nat) (read v : Entities) : Prop where
  typed : ∀ e ∈ v, e.type ≠ none
  source : (∃ e ∈ v, e.type = some 'r') → ∃ e ∈ read, e.type = some 'r'
  le : ∀ n, sentenceWeight length rank n v ≤ sentenceWeight length rank n read
  lt : (∃ e ∈ read, e.type = some 'r') →
    ∀ n, sentenceWeight length rank n v < sentenceWeight length rank n read

/-- `newvalues` holds expansions of the part of the entry that was read. -/
structure Expansion.Light (length : Nat) (rank : Str → Nat) (complete : Bool) (read : Entities)
    (x : Expansion) : Prop where
  lighter : ∀ v ∈ x.newvalues, Lighter length rank read v
  single : (∀ e ∈ read, e.type ≠ some 'r') → x.newvalues.length = 1
  flag : (∀ e ∈ read, e.type ≠ some 'r') → x.complete = complete

section

variable {length : Nat} {rank : Str → Nat} {complete : Bool} {read v : Entities} {e : Entity}

/-- The element stays, after another one was replaced or because it is none to be replaced. -/
theorem Lighter.keep (h : Lighter length rank read v) (ht : e.type ≠ none)
    (hr : e.type = some 'r' → ∃ d ∈ read, d.type = some 'r') :
    Lighter length rank (read ++ [e]) (v ++ [e]) := by
  have hread : (∃ d ∈ read ++ [e], d.type = some 'r') → ∃ d ∈ read, d.type = some 'r' := by
    rintro ⟨d, hd, hdr⟩
    rcases List.mem_append.mp hd with hd | hd
    · exact ⟨d, hd, hdr⟩
    · exact hr (List.mem_singleton.mp hd ▸ hdr)
  refine ⟨fun d hd => ?_, ?_, fun n => ?_, fun hex n => ?_⟩
  · rcases List.mem_append.mp hd with hd | hd
    · exact h.typed d hd
    · exact List.mem_singleton.mp hd ▸ ht
  · rintro ⟨d, hd, hdr⟩
    rcases List.mem_append.mp hd with hd | hd
    · obtain ⟨c, hc, hcr⟩ := h.source ⟨d, hd, hdr⟩
      exact ⟨c, List.mem_append_left _ hc, hcr⟩
    · exact ⟨e, by simp, List.mem_singleton.mp hd ▸ hdr⟩
  · rw [sentenceWeight_append, sentenceWeight_append]
    exact Nat.add_le_add_right (h.le n) _
  · rw [sentenceWeight_append, sentenceWeight_append]
    exact Nat.add_lt_add_right (h.lt (hread hex) n) _

/-- The element is replaced by something lighter. -/
theorem Lighter.replace (h : Lighter length rank read v) (hr : e.type = some 'r')
    {more : Entities} (hmore : ∀ d ∈ more, d.type ≠ none)
    (hlt : ∀ n, sentenceWeight length rank n more < e.weight length rank n) :
    Lighter length rank (read ++ [e]) (v ++ more) := by
  have hlt' : ∀ n, sentenceWeight length rank n (v ++ more)
      < sentenceWeight length rank n (read ++ [e]) := by
    intro n
    have hle := h.le n
    have := hlt n
    rw [sentenceWeight_append, sentenceWeight_append, sentenceWeight, sentenceWeight]
    omega
  refine ⟨fun d hd => ?_, fun _ => ⟨e, by simp, hr⟩, fun n => Nat.le_of_lt (hlt' n), fun _ => hlt'⟩
  rcases List.mem_append.mp hd with hd | hd
  · exact h.typed d hd
  · exact hmore d hd

/-- A right-hand side of a symbol that replaces it in a sentence is lighter than the symbol. -/
theorem replacement_lt {grammarmap : MultiHashMap Str Entities}
    (hdesc : Descends length rank grammarmap) (hr : e.type = some 'r') {es more : Entities}
    (hes : es ∈ grammarmap.get e.toKey)
    (hmore : List.Forall₂ (Marking length rank e) es more) (n : Nat) :
    sentenceWeight length rank n more < e.weight length rank n := by
  have hle := sentenceWeight_le_of_forall₂ (fun _ _ hd => hd.light n) hmore
  have hlt := hdesc _ es hes (if e.virt = [] then
    markedWeight length (rank (nameOf e.toKey)) n else n)
  unfold Entity.weight
  rw [if_pos hr]
  split
  · rename_i hv
    rw [if_pos hv] at hle hlt
    rw [unmarkedWeight_succ]
    omega
  · rename_i hv
    rw [if_neg hv] at hle hlt
    omega

/-- What the steps need of a map, and keep. -/
structure MapOk (length : Nat) (rank : Str → Nat) (grammarmap : MultiHashMap Str Entities) :
    Prop where
  rhs : ∀ key, ∀ es ∈ grammarmap.get key, ∀ e ∈ es, e.Rhs
  typed : ∀ key, ∀ es ∈ grammarmap.get key, ∀ e ∈ es, e.type ≠ none
  descends : Descends length rank grammarmap

variable {grammarmap : MultiHashMap Str Entities} {x : Expansion}

theorem Expansion.Light.keep (hx : x.Light length rank complete read) (ht : e.type ≠ none)
    {flag : Bool} (hlen : e.type = some 'r' → x.newvalues.length ≠ 1)
    (hflag : e.type ≠ some 'r' → flag = x.complete) :
    Expansion.Light length rank complete (read ++ [e])
      { x with newvalues := x.newvalues.map (· ++ [e]), complete := flag } := by
  have hread : ∀ {P : Prop}, (∀ d ∈ read ++ [e], d.type ≠ some 'r') →
      ((∀ d ∈ read, d.type ≠ some 'r') → e.type ≠ some 'r' → P) → P := fun h hP =>
    hP (fun d hd => h d (List.mem_append_left _ hd)) (h e (by simp))
  refine ⟨fun w hw => ?_, fun h => ?_, fun h => ?_⟩
  · obtain ⟨v, hv, rfl⟩ := List.mem_map.mp hw
    refine (hx.lighter v hv).keep ht fun hr => ?_
    by_contra hno
    exact hlen hr (hx.single fun d hd hdr => hno ⟨d, hd, hdr⟩)
  · exact hread h fun h _ => by rw [List.length_map, hx.single h]
  · exact hread h fun h hr => (hflag hr).trans (hx.flag h)

theorem Expansion.Light.replace (hr : e.type = some 'r') {flag : Bool} {g : StandardGrammar}
    {added : List Entities} (h : ∀ v ∈ added, Lighter length rank (read ++ [e]) v) :
    Expansion.Light length rank complete (read ++ [e]) ⟨added, flag, g⟩ :=
  ⟨h, fun hread => absurd hr (hread e (by simp)), fun hread => absurd hr (hread e (by simp))⟩

theorem Expansion.Light.expandSymbol {ord : HashOrder} (hlength : 0 < length)
    (hm : MapOk length rank grammarmap) (hx : x.Light length rank complete read) (hrhs : e.Rhs)
    (ht : e.type ≠ none) :
    ∃ x', expandSymbol ord grammarmap x e = some x' ∧
      x'.Light length rank complete (read ++ [e]) := by
  unfold Grammar.expandSymbol
  by_cases hr : e.type = some 'r'
  · rw [if_pos hr]
    have hmark : ∀ es ∈ ord.enum (grammarmap.get e.toKey), ∀ d ∈ es,
        ∃ d', d.modify e.getMarker = some d' ∧ Marking length rank e d d' := fun es hes d hd =>
      have hes := ord.mem_enum.mp hes
      hrhs.toSym.marking hlength hr (hm.rhs _ es hes d hd).wf (hm.typed _ es hes d hd)
    have hreplace : ∀ v ∈ x.newvalues, ∀ es ∈ ord.enum (grammarmap.get e.toKey), ∀ more,
        List.Forall₂ (Marking length rank e) es more →
          Lighter length rank (read ++ [e]) (v ++ more) := by
      intro v hv es hes more hmore
      refine (hx.lighter v hv).replace hr (fun d hd => ?_)
        (replacement_lt hm.descends hr (ord.mem_enum.mp hes) hmore)
      obtain ⟨i, hi, rfl⟩ := List.mem_iff_getElem.mp hd
      exact (hmore.get (hmore.length_eq ▸ hi) hi).typed
    split
    · refine ⟨x, rfl, .replace hr fun v hv => ?_⟩
      have h : Lighter length rank (read ++ [e]) (v ++ []) :=
        (hx.lighter v hv).replace hr (by simp) fun n => Entity.weight_pos hlength hr n
      rwa [List.append_nil] at h
    · rename_i replacement hone
      obtain ⟨added, g', hfold, hadded⟩ := @foldlM_addModified_forall₂ _ _ x.newvalues id
        (fun _ => replacement) e (fun _ _ => hmark _ (by simp [hone])) [] x.grammar
      have hadd : addReplacement x.grammar x.newvalues replacement e = some (added, g') := hfold
      refine ⟨_, by rw [hadd]; rfl, .replace hr fun w hw => ?_⟩
      obtain ⟨i, hi, rfl⟩ := List.mem_iff_getElem.mp hw
      obtain ⟨more, heq, hmore⟩ := hadded.get (hadded.length_eq ▸ hi) hi
      rw [List.get_eq_getElem, List.get_eq_getElem] at heq
      rw [heq]
      exact hreplace _ (List.getElem_mem _) replacement (by simp [hone]) more hmore
    · rename_i it hit _ _
      obtain ⟨added, g', hfold, hadded⟩ := @foldlM_addModified_forall₂ _ _
        (ord.enum (grammarmap.get e.toKey)) (fun _ => it) id e hmark [] x.grammar
      have hadd : addReplacements x.grammar it (ord.enum (grammarmap.get e.toKey)) e =
          some (added, g') := hfold
      refine ⟨_, by rw [hadd]; rfl, .replace hr fun w hw => ?_⟩
      obtain ⟨i, hi, rfl⟩ := List.mem_iff_getElem.mp hw
      obtain ⟨more, heq, hmore⟩ := hadded.get (hadded.length_eq ▸ hi) hi
      rw [List.get_eq_getElem] at heq
      rw [heq]
      exact hreplace it (by simp [hit]) _ (List.getElem_mem _) more hmore
    · rename_i hmany
      refine ⟨_, rfl, hx.keep ht (fun _ hlen => ?_) fun hne => absurd hr hne⟩
      obtain ⟨it, hit⟩ := List.length_eq_one_iff.mp hlen
      exact hmany it hit
  · rw [if_neg hr]
    exact ⟨_, rfl, hx.keep ht (fun h => absurd h hr) fun _ => rfl⟩

theorem expandEntry_light {ord : HashOrder} (hlength : 0 < length)
    (hm : MapOk length rank grammarmap) (g : StandardGrammar) {oldvalue : Entities}
    (hrhs : ∀ e ∈ oldvalue, e.Rhs) (ht : ∀ e ∈ oldvalue, e.type ≠ none) :
    ∃ x, expandEntry ord grammarmap g complete oldvalue = some x ∧
      x.Light length rank complete oldvalue := by
  refine foldlM_total (P := Expansion.Light length rank complete) ?_ ?_
  · have hnil : Lighter length rank [] [] :=
      ⟨by simp, fun ⟨_, he, _⟩ => absurd he (by simp), fun _ => Nat.le_refl _,
        fun ⟨_, he, _⟩ => absurd he (by simp)⟩
    exact ⟨fun v hv => List.mem_singleton.mp hv ▸ hnil, fun _ => rfl, fun _ => rfl⟩
  · exact fun read e x he hx => hx.expandSymbol hlength hm (hrhs e he) (ht e he)

end

/-! ## One step -/

/-- The new map holds lighter right-hand sides than the entries that were read. -/
structure StepLight (length : Nat) (rank : Str → Nat) (read : List (Str × Entities))
    (complete : Bool) (newGrammarmap : MultiHashMap Str Entities) : Prop where
  lighter : ∀ key v, newGrammarmap.Holds key v → ∃ es, (key, es) ∈ read ∧ Lighter length rank es v
  flag : (∀ it ∈ read, ∀ e ∈ it.2, e.type ≠ some 'r') → complete = true

section

variable {length : Nat} {rank : Str → Nat}

theorem StepLight.put {newGrammarmap : MultiHashMap Str Entities} {read : List (Str × Entities)}
    {complete : Bool} (h : StepLight length rank read complete newGrammarmap)
    {it : Str × Entities} {x : Expansion} (hx : x.Light length rank complete it.2) :
    StepLight length rank (read ++ [it]) x.complete
      (x.newvalues.foldl (fun m v => MultiHashMap.put m it.1 v) newGrammarmap) := by
  refine ⟨fun key v hv => ?_, fun hread => ?_⟩
  · rcases MultiHashMap.holds_foldl_put.mp hv with hv | ⟨hkey, hmem⟩
    · obtain ⟨es, hes, hlight⟩ := h.lighter key v hv
      exact ⟨es, List.mem_append_left _ hes, hlight⟩
    · subst hkey
      exact ⟨it.2, by simp, hx.lighter v hmem⟩
  · rw [hx.flag (hread it (by simp))]
    exact h.flag fun d hd => hread d (by simp [hd])

/-- Some right-hand side still holds a symbol that has to be replaced. -/
def Open (grammarmap : MultiHashMap Str Entities) (es : Entities) : Prop :=
  ∃ key, es ∈ grammarmap.get key ∧ ∃ e ∈ es, e.type = some 'r'

theorem MapOk.expandStep {g : StandardGrammar} (hlength : 0 < length) (hg : g.Ok)
    (hunique : HashMap.Unique g.grammarmap) (hm : MapOk length rank g.grammarmap)
    (ord : HashOrder) :
    ∃ g' complete, g.expandStep ord = some (g', complete) ∧ MapOk length rank g'.grammarmap ∧
      ((∀ es, ¬ Open g.grammarmap es) → complete = true) ∧
      ∀ v, Open g'.grammarmap v → ∃ es, Open g.grammarmap es ∧
        sentenceWeight length rank 0 v < sentenceWeight length rank 0 es := by
  have hget : ∀ it ∈ g.grammarmap.entrySet ord, it.2 ∈ g.grammarmap.get it.1 := fun it hit =>
    (MultiHashMap.mem_get_iff hunique).mpr (MultiHashMap.mem_entrySet.mp hit)
  obtain ⟨g', complete, hstep, hlight⟩ := @expandStep_total g ord (StepLight length rank)
    ⟨fun _ _ ⟨_, hvs, _⟩ => absurd hvs (by simp), fun _ => rfl⟩ (by
      intro read it g₁ complete m hit hs
      obtain ⟨x, hx, hxlight⟩ := @expandEntry_light _ rank complete _ ord hlength hm g₁ it.2
        (hm.rhs it.1 it.2 (hget it hit)) (hm.typed it.1 it.2 (hget it hit))
      exact ⟨x, hx, hs.put hxlight⟩)
  have hold : ∀ key v, v ∈ g'.grammarmap.get key →
      ∃ es ∈ g.grammarmap.get key, Lighter length rank es v := by
    intro key v hv
    obtain ⟨es, hes, hlighter⟩ := hlight.lighter key v (MultiHashMap.mem_get hv)
    exact ⟨es, hget _ hes, hlighter⟩
  refine ⟨g', complete, hstep, ⟨?_, ?_, ?_⟩, ?_, ?_⟩
  · exact fun key es hes e he => (hg.expandStep hstep).values.of_mem_get hes e he
  · intro key v hv
    obtain ⟨es, -, hlighter⟩ := hold key v hv
    exact hlighter.typed
  · intro key v hv n
    obtain ⟨es, hes, hlighter⟩ := hold key v hv
    exact Nat.lt_of_le_of_lt (hlighter.le n) (hm.descends key es hes n)
  · exact fun hno => hlight.flag fun it hit e he hr => hno it.2 ⟨it.1, hget it hit, e, he, hr⟩
  · rintro v ⟨key, hv, hr⟩
    obtain ⟨es, hes, hlighter⟩ := hold key v hv
    have hsource := hlighter.source hr
    exact ⟨es, ⟨key, hes, hsource⟩, hlighter.lt hsource 0⟩

/-! ## The whole run -/

/-- With every step the open right-hand sides get lighter, until there are none. -/
theorem expand_of_bound {g : StandardGrammar} (hlength : 0 < length) (hg : g.Ok)
    (hunique : HashMap.Unique g.grammarmap) (hm : MapOk length rank g.grammarmap)
    (ord : HashOrder) (b : Nat)
    (hb : ∀ es, Open g.grammarmap es → sentenceWeight length rank 0 es ≤ b) :
    ∀ fuel, b < fuel → ∃ g', StandardGrammar.expand ord fuel g = some g' := by
  induction b generalizing g with
  | zero =>
      intro fuel hfuel
      obtain ⟨fuel, rfl⟩ := Nat.exists_eq_add_one_of_ne_zero (Nat.ne_zero_of_lt hfuel)
      obtain ⟨g', complete, hstep, -, hflag, -⟩ := hm.expandStep hlength hg hunique ord
      have hcomplete : complete = true := hflag fun es hes => by
        obtain ⟨key, -, e, he, hr⟩ := id hes
        have hpos := @exists_weight_lt length rank hlength es e he hr 0
        have := hb es hes
        omega
      exact ⟨g'.buildReducemap ord, by
        simp only [StandardGrammar.expand, hstep, Option.bind_eq_bind, Option.bind_some, hcomplete,
          if_true]⟩
  | succ b ih =>
      intro fuel hfuel
      obtain ⟨fuel, rfl⟩ := Nat.exists_eq_add_one_of_ne_zero (Nat.ne_zero_of_lt hfuel)
      obtain ⟨g', complete, hstep, hm', -, hlt⟩ := hm.expandStep hlength hg hunique ord
      cases complete with
      | true =>
          exact ⟨g'.buildReducemap ord, by
            simp only [StandardGrammar.expand, hstep, Option.bind_eq_bind, Option.bind_some,
              if_true]⟩
      | false =>
          obtain ⟨g'', hrun⟩ := ih (hg.expandStep hstep) (expandStep_unique hstep) hm' (by
            intro v hv
            obtain ⟨es, hes, hlt⟩ := hlt v hv
            have := hb es hes
            omega) fuel (by omega)
          refine ⟨g'', ?_⟩
          simp only [StandardGrammar.expand, hstep, Option.bind_eq_bind, Option.bind_some]
          exact hrun

end

/-! ## The elements of a grammar that was reached -/

def Typed (grammarmap : MultiHashMap Str Entities) : Prop :=
  grammarmap.All fun _ es => ∀ e ∈ es, e.type ≠ none

theorem addSymbols_typed {g g' : StandardGrammar} {parts : List Str} {es : Entities}
    (h : g.addSymbols parts = some (es, g')) : ∀ e ∈ es, e.type ≠ none := by
  refine foldlM_induction (P := fun x : Entities × StandardGrammar => ∀ e ∈ x.1, e.type ≠ none)
    h (by simp) ?_
  rintro ⟨es₁, g₁⟩ part ⟨es₂, g₂⟩ - hes hstep
  simp only [Option.bind_eq_bind, Option.bind_eq_some_iff, Option.some.injEq,
    Prod.mk.injEq] at hstep
  obtain ⟨⟨e, g₃⟩, -, rfl, -⟩ := hstep
  dsimp only at hes ⊢
  split
  · exact hes
  · rename_i ht
    intro d hd
    rcases List.mem_append.mp hd with hd | hd
    · exact hes d hd
    · rw [List.mem_singleton.mp hd]
      exact ht

theorem readLine_typed {state state' : StandardGrammar × Option Entity} {line : Str}
    (ht : Typed state.1.grammarmap) (h : readLine state line = some state') :
    Typed state'.1.grammarmap := by
  rcases readLine_grammarmap h with heq | ⟨g, g₁, parts, es, key, hadd, heq⟩
  · rwa [heq]
  · rw [heq]
    exact MultiHashMap.All.put ht (addSymbols_typed hadd)

theorem Reached.typed {ord : HashOrder} {g : StandardGrammar} (h : Reached ord g) :
    Typed g.grammarmap := by
  induction h with
  | read hread =>
      exact foldlM_induction (P := fun x : StandardGrammar × Option Entity =>
        Typed x.1.grammarmap) hread (fun _ hd => by cases hd) fun _ _ _ _ ht hr =>
          readLine_typed ht hr
  | built _ ih => exact ih
  | stepped _ hstep ih =>
      refine (expandStep_all (G := fun _ => True) (P := fun e => e.type ≠ none) ?_ trivial ih
        hstep).2
      intro g g' e f d _ he _ hmod
      simp only [StandardGrammar.modifySymbol, Option.map_eq_some_iff, Prod.mk.injEq] at hmod
      obtain ⟨d, hmod, rfl, -⟩ := hmod
      exact ⟨trivial, Entity.initParts_type hmod he⟩

/-! ## Termination -/

/-- In an acyclic grammar the names can be weighed. -/
theorem exists_mapOk {g : StandardGrammar} (hg : g.Ok) (ht : Typed g.grammarmap)
    (h : Acyclic (namedRules g.grammarmap)) :
    ∃ length rank, 0 < length ∧ MapOk length rank g.grammarmap := by
  obtain ⟨b, hb⟩ := exists_bound (g.grammarmap.flatMap (·.2)) List.length
  have hall : ∀ key, ∀ es ∈ g.grammarmap.get key, es ∈ g.grammarmap.flatMap (·.2) := by
    intro key es hes
    obtain ⟨vs, hvs, hes⟩ := MultiHashMap.mem_get hes
    exact List.mem_flatMap.mpr ⟨_, hvs, hes⟩
  obtain ⟨rank, hrank⟩ := @Acyclic.exists_rank _ _ _ h
    ((g.grammarmap.flatMap (·.2)).flatMap (·.map fun e => nameOf e.toKey)).toFinset (by
      rintro v u ⟨f, ⟨key, -, es, hes, rfl⟩, hu⟩
      obtain ⟨e, he, hsym⟩ := List.mem_map.mp hu
      simp only [List.mem_toFinset, List.mem_flatMap, List.mem_map]
      refine ⟨es, List.mem_flatMap.mp (hall key es hes), e, he, ?_⟩
      split at hsym
      · exact Sum.inl.inj hsym
      · cases hsym)
  refine ⟨b + 1, rank, Nat.succ_pos b, fun key es hes => hg.values.of_mem_get hes,
    fun key es hes => ht.of_mem_get hes, fun key es hes n => ?_⟩
  -- the symbols of a right-hand side have lower ranks than the name they belong to
  have hweight : ∀ e ∈ es, e.weight (b + 1) rank n
      ≤ unmarkedWeight (b + 1) (rank (nameOf key)) n + n := by
    intro e he
    unfold Entity.weight
    split
    · rename_i hr
      have hlt : rank (nameOf e.toKey) < rank (nameOf key) :=
        hrank _ _ ⟨_, ⟨key, rfl, es, hes, rfl⟩, List.mem_map.mpr ⟨e, he, if_pos hr⟩⟩
      have hpos : 0 < b + 1 := Nat.succ_pos b
      have hmono := unmarkedWeight_mono_rank hpos
        (show rank (nameOf e.toKey) + 1 ≤ rank (nameOf key) from hlt) n
      have hle := markedWeight_le_unmarked hpos (rank (nameOf e.toKey)) n
      split <;> omega
    · split
      · exact Nat.le_add_left n _
      · exact Nat.zero_le _
  have hsum := sentenceWeight_le_length hweight
  have hlen : es.length ≤ b + 1 := Nat.le_succ_of_le (hb es (hall key es hes))
  have hmul := Nat.mul_le_mul_right (unmarkedWeight (b + 1) (rank (nameOf key)) n + n) hlen
  unfold markedWeight
  omega

/-- Where the references between names are acyclic, finitely many steps expand the grammar. -/
theorem expand_terminates {ord : HashOrder} {g : StandardGrammar} (hg : Reached ord g)
    (h : Acyclic (namedRules g.grammarmap)) :
    ∃ bound, ∀ fuel, bound < fuel → ∃ g', StandardGrammar.expand ord fuel g = some g' := by
  obtain ⟨length, rank, hlength, hm⟩ := exists_mapOk hg.ok.1 hg.typed h
  obtain ⟨b, hb⟩ := exists_bound (g.grammarmap.flatMap (·.2)) (sentenceWeight length rank 0)
  refine ⟨b, expand_of_bound hlength hg.ok.1 hg.ok.2 hm ord b ?_⟩
  rintro es ⟨key, hes, -⟩
  obtain ⟨vs, hvs, hes⟩ := MultiHashMap.mem_get hes
  exact hb es (List.mem_flatMap.mpr ⟨_, hvs, hes⟩)

/-- Where a rank is lower for the names of all elements, there are no cycles. -/
theorem namedAcyclic_of_forall {grammarmap : MultiHashMap Str Entities} (rank : Str → Nat)
    (h : ∀ d ∈ grammarmap, ∀ es ∈ d.2, ∀ e ∈ es, e.type = some 'r' →
      rank (nameOf e.toKey) < rank (nameOf d.1)) : Acyclic (namedRules grammarmap) := by
  apply acyclic_of_rank rank
  rintro v u ⟨f, ⟨key, rfl, es, hes, rfl⟩, hu⟩
  obtain ⟨vs, hvs, hes⟩ := MultiHashMap.mem_get hes
  obtain ⟨e, he, hsym⟩ := List.mem_map.mp hu
  split at hsym
  · rename_i hr
    cases hsym
    exact h _ hvs es hes e he hr
  · cases hsym

/-- Adjectives with an order and a phrase without a name. -/
def phraseGrammar : List Str :=
  ["s-np:", "  r-adjs/2 d-noun", "r-adjs/2:", "  r-adj", "  r-adj v-and r-adj", "r-adj:",
    "  d-adjective", "  d-participle"].map String.toList

theorem expand_terminates_phrase : ∃ g,
    (phraseGrammar.foldlM readLine ({}, none)).map (·.1) = some g ∧
      ∃ bound, ∀ fuel, bound < fuel →
        ∃ g', StandardGrammar.expand HashOrder.insertion fuel g = some g' := by
  let rank : Str → Nat := fun name =>
    if name = "s-np".toList then 2 else if name = "r-adjs".toList then 1 else 0
  have hrun : (phraseGrammar.foldlM readLine ({}, none)).any fun state => decide
      (∀ d ∈ state.1.grammarmap, ∀ es ∈ d.2, ∀ e ∈ es, e.type = some 'r' →
        rank (nameOf e.toKey) < rank (nameOf d.1)) := by
    decide +kernel
  simp only [Option.any_eq_true, decide_eq_true_eq] at hrun
  obtain ⟨⟨g, key⟩, hread, hrank⟩ := hrun
  exact ⟨g, by rw [hread]; rfl, expand_terminates (.read hread) (namedAcyclic_of_forall rank hrank)⟩

/-! ## Orders that are passed on -/

theorem expand_succ {ord : HashOrder} {g g' : StandardGrammar} {fuel : Nat}
    (h : g.expandStep ord = some (g', false)) :
    StandardGrammar.expand ord (fuel + 1) g = StandardGrammar.expand ord fuel g' := by
  simp [StandardGrammar.expand, h]

theorem expand_of_fixed {ord : HashOrder} {g : StandardGrammar}
    (h : g.expandStep ord = some (g, false)) (fuel : Nat) :
    StandardGrammar.expand ord fuel g = none := by
  induction fuel with
  | zero => rfl
  | succ fuel ih => rw [expand_succ h, ih]

/-- `r-b` replaces `r-a/3` as `r-b/3`, which `r-a/3` replaces. -/
def orderGrammar : List Str :=
  ["s-x:", "  r-e", "r-e:", "  r-b/3 r-b/3", "r-b/3:", "  r-a/3", "  d-x/3", "r-a/3:", "  r-b",
    "r-b:", "  d-y"].map String.toList

/-- The symbols with their orders refer to one another without a cycle, and yet no number of steps
is enough: after three of them the grammar does not change any more and is never complete. -/
theorem expand_diverges : ¬ ∀ (ord : HashOrder) (g : StandardGrammar), Reached ord g →
    Acyclic (rules g.grammarmap) →
      ∃ bound, ∀ fuel, bound < fuel → ∃ g', StandardGrammar.expand ord fuel g = some g' := by
  intro hall
  let rank : Str → Nat := fun key =>
    if key = "s-x".toList then 4 else if key = "r-e".toList then 3
    else if key = "r-b/3".toList then 2 else if key = "r-a/3".toList then 1 else 0
  have hrun : (orderGrammar.foldlM readLine ({}, none)).any fun state =>
      (state.1.expandStep HashOrder.insertion).any fun x =>
        (x.1.expandStep HashOrder.insertion).any fun y =>
          (y.1.expandStep HashOrder.insertion).any fun z =>
            (z.1.expandStep HashOrder.insertion).any fun z' =>
              !x.2 && !y.2 && !z.2 && !z'.2 && z.1.reducemap.isEmpty && z'.1.reducemap.isEmpty &&
                z.1.reducekeysSorted.isEmpty && z'.1.reducekeysSorted.isEmpty &&
                decide (z'.1.symbolmapStrObj = z.1.symbolmapStrObj) &&
                decide (z'.1.grammarmap = z.1.grammarmap) &&
                decide (∀ d ∈ state.1.grammarmap, ∀ es ∈ d.2, ∀ e ∈ es, e.type = some 'r' →
                  rank e.toKey < rank d.1) := by
    decide +kernel
  simp only [Option.any_eq_true, Bool.and_eq_true, Bool.not_eq_true', decide_eq_true_eq,
    List.isEmpty_iff] at hrun
  obtain ⟨⟨g, key⟩, hread, ⟨x, cx⟩, hx, ⟨y, cy⟩, hy, ⟨z, cz⟩, hz, ⟨z', cz'⟩, hz', hrun⟩ := hrun
  obtain ⟨⟨⟨⟨⟨⟨⟨⟨⟨⟨rfl, rfl⟩, rfl⟩, rfl⟩, hr⟩, hr'⟩, hk⟩, hk'⟩, hs⟩, hm⟩, hrank⟩ := hrun
  have hfixed : z' = z := by
    cases z
    cases z'
    simp_all
  obtain ⟨bound, hbound⟩ := hall _ g (.read hread) (acyclic_of_forall rank hrank)
  obtain ⟨g', hg'⟩ := hbound (bound + 1 + 1 + 1) (by omega)
  rw [expand_succ hx, expand_succ hy, expand_succ hz, expand_of_fixed (hfixed ▸ hz')] at hg'
  cases hg'

end Freehal.Grammar
