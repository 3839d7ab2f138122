import Freehal.Grammar.StandardGrammar

/-!
# Reading a printed symbol back

Every entity that the constructors build is well formed, and the text of a well-formed symbol
reads back as that symbol. A marker of an entity with the same key leaves the key alone.
-/

namespace Freehal.Grammar
open Lib

/-! ## Parts -/

/-- A part that `init` keeps: not ignored and not read as a number. -/
structure Part (p : Str) : Prop where
  ne_nil : p ≠ []
  ne_null : p ≠ "null".toList
  not_order : isOrder p = false
  no_slash : '/' ∉ p

/-- A part that names the data, the symbol or the replacement. -/
def prefixed (p : Str) : Prop := startsWith "s-" p ∨ startsWith "r-" p ∨ startsWith "d-" p

/-! ## Well-formed entities -/

/-- No key: nothing that could become one was read. -/
def Entity.Bare (e : Entity) : Prop := e.symbol = [] ∧ e.repl = [] ∧ e.data = []

instance (e : Entity) : Decidable e.Bare := by unfold Entity.Bare; infer_instance

/-- At most one of the three keys is set, to a part with its prefix. -/
def Entity.KeyOk (e : Entity) : Prop :=
  (e.Bare ∧ ∀ p ∈ e.virt, ¬ prefixed p) ∨
  (e.repl = [] ∧ e.data = [] ∧ Part e.symbol ∧ startsWith "s-" e.symbol) ∨
  (e.symbol = [] ∧ e.data = [] ∧ Part e.repl ∧ startsWith "r-" e.repl) ∨
  (e.symbol = [] ∧ e.repl = [] ∧ Part e.data ∧ startsWith "d-" e.data)

structure Entity.Wf (e : Entity) : Prop where
  virt : ∀ p ∈ e.virt, Part p
  no_repl : ∀ p ∈ e.virt, startsWith "r-" p = false
  key : e.KeyOk
  order : e.order = -1 ∨ ∃ n : Nat, e.order = n ∧ n ≤ intMax

/-- An entity that carries neither a text nor children. -/
def Entity.Plain (e : Entity) : Prop := e.text = [] ∧ e.embed = []

theorem Entity.Wf.empty : Entity.Wf {} := by
  refine ⟨by simp, by simp, Or.inl ⟨⟨rfl, rfl, rfl⟩, by simp⟩, Or.inl rfl⟩

theorem Entity.KeyOk.bare_or {e : Entity} (h : e.KeyOk) :
    (e.Bare ∧ ∀ p ∈ e.virt, ¬ prefixed p) ∨ ¬ e.Bare := by
  rcases h with h | ⟨_, _, h, _⟩ | ⟨_, _, h, _⟩ | ⟨_, _, h, _⟩
  · exact Or.inl h
  · exact Or.inr fun hb => h.ne_nil hb.1
  · exact Or.inr fun hb => h.ne_nil hb.2.1
  · exact Or.inr fun hb => h.ne_nil hb.2.2

/-- A part that is added to the markers, and where that leaves the key in order. -/
theorem Entity.Wf.addVirt {e : Entity} (h : e.Wf) {p : Str} (hp : Part p)
    (hr : startsWith "r-" p = false) (hb : e.Bare → ¬ prefixed p) :
    Entity.Wf { e with virt := e.virt ++ [p] } := by
  refine ⟨?_, ?_, ?_, h.order⟩
  · intro q hq
    rcases List.mem_append.mp hq with hq | hq
    · exact h.virt q hq
    · rw [List.mem_singleton.mp hq]; exact hp
  · intro q hq
    rcases List.mem_append.mp hq with hq | hq
    · exact h.no_repl q hq
    · rw [List.mem_singleton.mp hq]; exact hr
  · rcases h.key with ⟨hbare, hv⟩ | hk
    · refine Or.inl ⟨hbare, fun q hq => ?_⟩
      rcases List.mem_append.mp hq with hq | hq
      · exact hv q hq
      · rw [List.mem_singleton.mp hq]; exact hb hbare
    · exact Or.inr hk

theorem parseInt_lt {p : Str} {n : Int} (h : parseInt p = some n) :
    ∃ m : Nat, n = m ∧ m ≤ intMax := by
  unfold parseInt at h
  split at h
  · rename_i hc
    simp only [Bool.and_eq_true, decide_eq_true_eq] at hc
    exact ⟨_, (Option.some.inj h).symm, hc.2⟩
  · cases h

theorem Entity.initPart_wf {e e' : Entity} {p : Str} (h : e.Wf) (hp : '/' ∉ p)
    (hi : e.initPart p = some e') : e'.Wf ∧ e'.text = e.text ∧ e'.embed = e.embed := by
  unfold Entity.initPart at hi
  split at hi
  · cases hi; exact ⟨h, rfl, rfl⟩
  rename_i hne
  split at hi
  · simp only [Option.map_eq_some_iff] at hi
    obtain ⟨n, hn, rfl⟩ := hi
    obtain ⟨m, rfl, hm⟩ := parseInt_lt hn
    exact ⟨⟨h.virt, h.no_repl, h.key, Or.inr ⟨m, rfl, hm⟩⟩, rfl, rfl⟩
  rename_i hord
  have part : Part p := ⟨fun hp => hne (Or.inl hp), fun hp => hne (Or.inr hp), by simpa using hord, hp⟩
  split at hi
  · rename_i hb
    obtain ⟨hs, hr, hd⟩ := hb
    have key : ∀ q ∈ e.virt, ¬ prefixed q := by
      rcases h.key.bare_or with ⟨_, hv⟩ | hb
      · exact hv
      · exact absurd ⟨hs, hr, hd⟩ hb
    split at hi
    · rename_i hpre
      cases hi
      exact ⟨⟨h.virt, h.no_repl, Or.inr (Or.inl ⟨hr, hd, part, hpre⟩), h.order⟩, rfl, rfl⟩
    split at hi
    · rename_i hpre
      cases hi
      exact ⟨⟨h.virt, h.no_repl, Or.inr (Or.inr (Or.inl ⟨hs, hd, part, hpre⟩)), h.order⟩, rfl, rfl⟩
    rename_i hpr
    split at hi
    · rename_i hpre
      cases hi
      exact ⟨⟨h.virt, h.no_repl, Or.inr (Or.inr (Or.inr ⟨hs, hr, part, hpre⟩)), h.order⟩, rfl, rfl⟩
    · cases hi
      refine ⟨h.addVirt part (by simpa using hpr) fun _ hpre => ?_, rfl, rfl⟩
      simp_all [prefixed]
  · rename_i hb
    split at hi
    · cases hi; exact ⟨h, rfl, rfl⟩
    · rename_i hpr
      cases hi
      exact ⟨h.addVirt part (by simpa using hpr) (fun hbare => absurd hbare hb), rfl, rfl⟩

theorem Entity.initParts_wf {ps : List Str} {e e' : Entity} (h : e.Wf) (hp : ∀ p ∈ ps, '/' ∉ p)
    (hi : e.initParts ps = some e') : e'.Wf ∧ e'.text = e.text ∧ e'.embed = e.embed := by
  induction ps generalizing e with
  | nil => cases hi; exact ⟨h, rfl, rfl⟩
  | cons p ps ih =>
      simp only [Entity.initParts, List.foldlM_cons, Option.bind_eq_bind,
        Option.bind_eq_some_iff] at hi
      obtain ⟨e₁, h₁, h₂⟩ := hi
      obtain ⟨w₁, t₁, m₁⟩ := Entity.initPart_wf h (hp p (by simp)) h₁
      obtain ⟨w₂, t₂, m₂⟩ := ih w₁ (fun q hq => hp q (by simp [hq])) h₂
      exact ⟨w₂, t₂.trans t₁, m₂.trans m₁⟩

theorem Entity.init_wf {e e' : Entity} {text : Str} (h : e.Wf) (hi : e.init text = some e') :
    e'.Wf ∧ e'.text = e.text ∧ e'.embed = e.embed :=
  Entity.initParts_wf h (fun _ hp => not_mem_of_mem_splitOn hp) hi

theorem Entity.new_wf {e : Entity} {text : Str} (h : Entity.new text = some e) :
    e.Wf ∧ e.Plain := by
  obtain ⟨hw, ht, hm⟩ := Entity.init_wf Entity.Wf.empty h
  exact ⟨hw, ht, hm⟩

theorem Entity.modify_wf {e e' : Entity} {marker : List Str} (h : e.Wf)
    (hm : e.modify marker = some e') : e'.Wf ∧ e'.text = e.text ∧ e'.embed = e.embed :=
  Entity.init_wf h hm

/-! ## Keys -/

theorem Entity.Wf.base_part {e : Entity} (h : e.Wf) :
    (e.Bare ∧ e.base = "null".toList) ∨ (¬ e.Bare ∧ Part e.base) := by
  rcases h.key with ⟨⟨hs, hr, hd⟩, _⟩ | ⟨hr, hd, hp, _⟩ | ⟨hs, hd, hp, _⟩ | ⟨hs, hr, hp, _⟩
  · exact Or.inl ⟨⟨hs, hr, hd⟩, by simp [Entity.base, hs, hr, hd]⟩
  · exact Or.inr ⟨fun hb => hp.ne_nil hb.1, by simpa [Entity.base, hd, hp.ne_nil] using hp⟩
  · exact Or.inr ⟨fun hb => hp.ne_nil hb.2.1, by simpa [Entity.base, hs, hd, hp.ne_nil] using hp⟩
  · exact Or.inr ⟨fun hb => hp.ne_nil hb.2.2, by simpa [Entity.base, hp.ne_nil] using hp⟩

theorem Entity.Wf.base_no_slash {e : Entity} (h : e.Wf) : '/' ∉ e.base := by
  rcases h.base_part with ⟨_, hb⟩ | ⟨_, hp⟩
  · rw [hb]; decide
  · exact hp.no_slash

/-- The key determines its two halves. -/
theorem Entity.toKey_inj {v f : Entity} (hv : v.Wf) (hf : f.Wf) (h : v.toKey = f.toKey) :
    v.base = f.base ∧ v.order = f.order := by
  have sv := hv.base_no_slash
  have sf := hf.base_no_slash
  unfold Entity.toKey at h
  rcases hv.order with ov | ⟨n, ov, _⟩ <;> rcases hf.order with of | ⟨m, of, _⟩
  · simp only [ov, of] at h ⊢
    exact ⟨h, trivial⟩
  · simp only [ov, of, Int.natCast_nonneg, Int.reduceNeg, Int.reduceLE, ↓reduceIte] at h
    exact absurd (by simp : '/' ∈ f.base ++ '/' :: decimal _) (h ▸ sv)
  · simp only [ov, of, Int.natCast_nonneg, Int.reduceNeg, Int.reduceLE, ↓reduceIte] at h
    exact absurd (by simp : '/' ∈ v.base ++ '/' :: decimal _) (h.symm ▸ sf)
  · simp only [ov, of, Int.natCast_nonneg, ↓reduceIte, Int.toNat_natCast] at h ⊢
    obtain ⟨hb, hd⟩ := append_sep_inj sv sf h
    exact ⟨hb, by rw [decimal_injective hd]⟩

/-! ## The parts of a printed symbol -/

def Entity.orderParts (e : Entity) : List Str := if 0 ≤ e.order then [decimal e.order.toNat] else []

/-- The parts of `toStr` of a plain entity. -/
def Entity.parts (e : Entity) : List Str := e.base :: (e.orderParts ++ e.virt)

theorem Entity.Plain.toStr {e : Entity} (h : e.Plain) : e.toStr = e.toLabel := by
  obtain ⟨d, s, r, v, t, m, o⟩ := e
  obtain ⟨rfl, rfl⟩ : t = [] ∧ m = [] := h
  simp [Entity.toStr]

theorem intercalate_cons_slash (p : Str) (ps : List Str) :
    ['/'].intercalate (p :: ps) = p ++ ps.flatMap ('/' :: ·) :=
  intercalate_cons ['/'] p ps

theorem Entity.toLabel_eq (e : Entity) : e.toLabel = ['/'].intercalate e.parts := by
  rw [Entity.parts, intercalate_cons_slash, Entity.toLabel, Entity.toKey, Entity.orderParts]
  split <;> simp

theorem Entity.Wf.parts_no_slash {e : Entity} (h : e.Wf) : ∀ p ∈ e.parts, '/' ∉ p := by
  intro p hp
  simp only [Entity.parts, Entity.orderParts, List.mem_cons, List.mem_append] at hp
  rcases hp with rfl | hp | hp
  · exact h.base_no_slash
  · split at hp
    · rw [List.mem_singleton.mp hp]; exact not_mem_decimal (by decide)
    · simp at hp
  · exact (h.virt p hp).no_slash

theorem Entity.Wf.split_toLabel {e : Entity} (h : e.Wf) : e.toLabel.splitOn '/' = e.parts := by
  rw [Entity.toLabel_eq, List.splitOn_intercalate '/' h.parts_no_slash (by simp [Entity.parts])]

/-! ## Reading parts -/

/-- The entity is a recursive structure, so this does not hold by definition. -/
@[simp] theorem Entity.eta (e : Entity) :
    (⟨e.data, e.symbol, e.repl, e.virt, e.text, e.embed, e.order⟩ : Entity) = e := by
  cases e; rfl

theorem dropTerminator_decimal (n : Nat) : dropTerminator (decimal n) = decimal n := by
  have hd : ∀ c ∈ (decimal n).reverse, c.isDigit := fun c hc =>
    isDigit_of_mem_decimal (List.mem_reverse.mp hc)
  unfold dropTerminator
  split
  · rename_i rest h
    have := hd '\n' (by simp [h])
    simp at this
  · rename_i c rest _ h
    split
    · rename_i hc
      have := hd c (by simp [h])
      simp only [List.mem_cons, List.not_mem_nil, or_false] at hc
      rcases hc with rfl | rfl | rfl | rfl | rfl <;> exact absurd this (by decide)
    · rfl
  · rename_i h; exact absurd (List.reverse_eq_nil_iff.mp h) (decimal_ne_nil n)

theorem isOrder_decimal (n : Nat) : isOrder (decimal n) := by
  simp only [isOrder, dropTerminator_decimal, Bool.and_eq_true, decide_eq_true_eq, List.all_eq_true]
  exact ⟨decimal_ne_nil n, fun c hc => isDigit_of_mem_decimal hc⟩

theorem parseInt_decimal {n : Nat} (h : n ≤ intMax) : parseInt (decimal n) = some (n : Int) := by
  have hd : (decimal n).all Char.isDigit := List.all_eq_true.mpr fun c hc => isDigit_of_mem_decimal hc
  simp only [parseInt, hd, ofDigitChars_decimal, Bool.true_and, decide_eq_true_eq]
  rw [if_pos h]

theorem Entity.initPart_order (e : Entity) {n : Nat} (h : n ≤ intMax) :
    e.initPart (decimal n) = some { e with order := n } := by
  have hne : ¬ (decimal n = [] ∨ decimal n = "null".toList) := by
    rintro (h | h)
    · exact decimal_ne_nil n h
    · exact not_mem_decimal (n := n) (c := 'n') (by decide) (by rw [h]; decide)
  rw [Entity.initPart, if_neg hne, if_pos (isOrder_decimal n), parseInt_decimal h]
  rfl

/-- A part read into an entity that has a key already. -/
theorem Entity.initPart_keyed {e : Entity} (hb : ¬ e.Bare) {p : Str} (hp : Part p) :
    e.initPart p = some { e with virt := if startsWith "r-" p then e.virt else e.virt ++ [p] } := by
  rw [Entity.initPart, if_neg (by rintro (h | h); exact hp.ne_nil h; exact hp.ne_null h),
    if_neg (by simp [hp.not_order]),
    if_neg (show ¬ (e.symbol = [] ∧ e.repl = [] ∧ e.data = []) from hb)]
  split
  · simp
  · rfl

theorem Entity.initPart_bare {e : Entity} (hb : e.Bare) {p : Str} (hp : Part p)
    (hn : ¬ prefixed p) : e.initPart p = some { e with virt := e.virt ++ [p] } := by
  simp only [prefixed, not_or, Bool.not_eq_true] at hn
  rw [Entity.initPart, if_neg (by rintro (h | h); exact hp.ne_nil h; exact hp.ne_null h),
    if_neg (by simp [hp.not_order]),
    if_pos (show e.symbol = [] ∧ e.repl = [] ∧ e.data = [] from hb)]
  simp [hn]

/-- Markers are appended in order. -/
theorem Entity.initParts_virt {vs : List Str} {e : Entity} (hv : ∀ p ∈ vs, Part p)
    (hr : ∀ p ∈ vs, startsWith "r-" p = false) (hb : e.Bare → ∀ p ∈ vs, ¬ prefixed p) :
    e.initParts vs = some { e with virt := e.virt ++ vs } := by
  induction vs generalizing e with
  | nil => simp [Entity.initParts]
  | cons p vs ih =>
      have hp := hv p (by simp)
      have step : e.initPart p = some { e with virt := e.virt ++ [p] } := by
        by_cases hbare : e.Bare
        · exact Entity.initPart_bare hbare hp (hb hbare p (by simp))
        · rw [Entity.initPart_keyed hbare hp, hr p (by simp)]; rfl
      simp only [Entity.initParts, List.foldlM_cons, step, Option.bind_eq_bind, Option.bind_some]
      refine (ih (e := { e with virt := e.virt ++ [p] }) (fun q hq => hv q (by simp [hq]))
        (fun q hq => hr q (by simp [hq])) (fun hbare q hq => hb hbare q (by simp [hq]))).trans ?_
      simp

theorem Entity.initParts_append (e : Entity) (ps qs : List Str) :
    e.initParts (ps ++ qs) = (e.initParts ps).bind fun e => e.initParts qs := by
  simp [Entity.initParts, List.foldlM_append]

theorem Entity.initParts_order {e f : Entity} (hf : f.Wf) :
    e.initParts f.orderParts = some { e with order := if 0 ≤ f.order then f.order else e.order } := by
  rcases hf.order with h | ⟨n, h, hn⟩
  · simp [Entity.orderParts, h, Entity.initParts]
  · simp [Entity.orderParts, h, Entity.initParts, Entity.initPart_order e hn]

theorem Entity.initPart_null (e : Entity) : e.initPart "null".toList = some e := by
  simp [Entity.initPart]

theorem Entity.initPart_nil (e : Entity) : e.initPart [] = some e := by
  simp [Entity.initPart]

/-- A text has one beginning of a given length. -/
theorem startsWith_excl {p q : String} {part : Str} (h : startsWith p part)
    (hpq : p.toList.length = q.toList.length ∧ p.toList ≠ q.toList) :
    startsWith q part = false := by
  rw [Bool.eq_false_iff]
  intro h'
  unfold startsWith at h h'
  rw [List.isPrefixOf_iff_prefix] at h h'
  exact hpq.2 ((List.prefix_of_prefix_length_le h h' hpq.1.le).eq_of_length hpq.1)

/-- The base of a symbol read into the empty entity sets the key of that symbol. -/
theorem Entity.Wf.initPart_base {r : Entity} (h : r.Wf) :
    Entity.initPart {} r.base = some { data := r.data, symbol := r.symbol, repl := r.repl } := by
  rcases h.key with ⟨⟨hs, hr, hd⟩, _⟩ | ⟨hr, hd, hp, hx⟩ | ⟨hs, hd, hp, hx⟩ | ⟨hs, hr, hp, hx⟩
  · have : r.base = "null".toList := by simp [Entity.base, hs, hr, hd]
    rw [this, Entity.initPart_null, hs, hr, hd]
  · have : r.base = r.symbol := by simp [Entity.base, hd, hp.ne_nil]
    rw [this, Entity.initPart, if_neg (by rintro (h | h); exact hp.ne_nil h; exact hp.ne_null h),
      if_neg (by simp [hp.not_order]), if_pos ⟨rfl, rfl, rfl⟩, if_pos hx, hr, hd]
  · have : r.base = r.repl := by simp [Entity.base, hs, hd, hp.ne_nil]
    have hns : startsWith "s-" r.repl = false := startsWith_excl hx (by decide)
    rw [this, Entity.initPart, if_neg (by rintro (h | h); exact hp.ne_nil h; exact hp.ne_null h),
      if_neg (by simp [hp.not_order]), if_pos ⟨rfl, rfl, rfl⟩, if_neg (by simp [hns]), if_pos hx, hs, hd]
  · have : r.base = r.data := by simp [Entity.base, hp.ne_nil]
    have hns : startsWith "s-" r.data = false ∧ startsWith "r-" r.data = false :=
      ⟨startsWith_excl hx (by decide), startsWith_excl hx (by decide)⟩
    rw [this, Entity.initPart, if_neg (by rintro (h | h); exact hp.ne_nil h; exact hp.ne_null h),
      if_neg (by simp [hp.not_order]), if_pos ⟨rfl, rfl, rfl⟩, if_neg (by simp [hns.1]),
      if_neg (by simp [hns.2]), if_pos hx, hs, hr]

/-- The text of a symbol reads back as that symbol. -/
theorem Entity.new_toStr {r : Entity} (h : r.Wf) (hp : r.Plain) : Entity.new r.toStr = some r := by
  rw [hp.toStr, Entity.new, Entity.init, h.split_toLabel, Entity.parts, ← List.singleton_append,
    Entity.initParts_append]
  have hbase : Entity.initParts {} [r.base]
      = some { data := r.data, symbol := r.symbol, repl := r.repl } := by
    simp [Entity.initParts, h.initPart_base]
  rw [hbase, Option.bind_some, Entity.initParts_append, Entity.initParts_order h, Option.bind_some,
    Entity.initParts_virt h.virt h.no_repl]
  · obtain ⟨d, s, rp, v, t, m, o⟩ := r
    obtain ⟨rfl, rfl⟩ : t = [] ∧ m = [] := hp
    rcases h.order with ho | ⟨n, ho, _⟩ <;> simp only at ho <;> simp [ho]
  · intro hb
    rcases h.key.bare_or with ⟨_, hv⟩ | hnb
    · exact hv
    · exact absurd hb hnb

/-! ## Markers -/

theorem split_marker {ps : List Str} (h : ∀ p ∈ ps, '/' ∉ p) :
    (ps.flatMap ('/' :: ·)).splitOn '/' = [] :: ps := by
  have hps : ∀ p ∈ [] :: ps, '/' ∉ p := by
    intro p hp
    rcases List.mem_cons.mp hp with rfl | hp
    · simp
    · exact h p hp
  have := List.splitOn_intercalate '/' hps (by simp)
  rwa [intercalate_cons_slash, List.nil_append] at this

/-- The markers of a symbol, or its key if it has none, are read into an entity part by part. -/
theorem Entity.modify_getMarker {f : Entity} (hf : f.Wf) (hp : f.Plain) (e : Entity) :
    e.modify f.getMarker = e.initParts (if f.virt = [] then f.base :: f.orderParts else f.virt) := by
  have hnil : ∀ ps, Entity.initParts e ([] :: ps) = e.initParts ps := fun ps => by
    simp [Entity.initParts, Entity.initPart_nil]
  unfold Entity.modify Entity.init Entity.getMarker
  by_cases hvirt : f.virt = []
  · have hlabel : [f.toStr].flatMap ('/' :: ·) = f.parts.flatMap ('/' :: ·) := by
      rw [hp.toStr, Entity.toLabel_eq, Entity.parts, intercalate_cons_slash]
      simp
    have hparts : f.parts = f.base :: f.orderParts := by simp [Entity.parts, hvirt]
    rw [if_neg (by simp [hvirt]), hlabel, split_marker hf.parts_no_slash, hnil, if_pos hvirt, hparts]
  · rw [if_pos hvirt, split_marker fun p hp => (hf.virt p hp).no_slash, hnil, if_neg hvirt]

/-- The markers of an entity with the same key change nothing but the markers. -/
theorem Entity.modify_marker {v f e : Entity} (hv : v.Wf) (hf : f.Wf) (hp : f.Plain)
    (hk : v.toKey = f.toKey) (h : v.modify f.getMarker = some e) :
    ∃ vs, e = { v with virt := vs } := by
  obtain ⟨hbase, hord⟩ := Entity.toKey_inj hv hf hk
  have hbare : v.Bare ↔ f.Bare := by
    rcases hv.base_part with ⟨bv, nv⟩ | ⟨bv, pv⟩ <;> rcases hf.base_part with ⟨bf, nf⟩ | ⟨bf, pf⟩
    · exact ⟨fun _ => bf, fun _ => bv⟩
    · exact absurd (hbase.symm.trans nv) pf.ne_null
    · exact absurd (hbase.trans nf) pv.ne_null
    · exact ⟨fun h => absurd h bv, fun h => absurd h bf⟩
  rw [Entity.modify_getMarker hf hp] at h
  split at h
  · rw [← List.singleton_append, Entity.initParts_append] at h
    -- the base is ignored or becomes a marker, and the order is the one that is there
    obtain ⟨vs, hvs⟩ : ∃ vs, v.initParts [f.base] = some { v with virt := vs } := by
      rcases hf.base_part with ⟨_, nf⟩ | ⟨bf, pf⟩
      · exact ⟨v.virt, by simp only [Entity.initParts, nf, List.foldlM_cons, List.foldlM_nil,
          Entity.initPart_null, Entity.eta]; rfl⟩
      · exact ⟨_, by simp only [Entity.initParts, List.foldlM_cons, List.foldlM_nil,
          Entity.initPart_keyed (fun hb => bf (hbare.mp hb)) pf]; rfl⟩
    rw [hvs, Option.bind_some, Entity.initParts_order hf] at h
    refine ⟨vs, ?_⟩
    rw [← Option.some.inj h, ← hord]
    simp
  · have hread := Entity.initParts_virt (e := v) hf.virt hf.no_repl fun hb => by
      rcases hf.key.bare_or with ⟨_, hn⟩ | hn
      · exact hn
      · exact absurd (hbare.mp hb) hn
    exact ⟨_, Option.some.inj (h.symm.trans hread)⟩

end Freehal.Grammar
