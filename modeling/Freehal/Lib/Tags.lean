import Freehal.Lib.Text

/-!
# Nested tags

A reader of texts with tags keeps the names of the open ones on a stack. What is built from nested
pieces is nested.
-/

namespace Freehal.Lib

/-- Between two tags, with the text since the first one, or inside a tag. -/
inductive TagState where
  | chars (cur : Str)
  | tag (name : Str)

/-- The open tags after a tag: a new one, or those below the one that is closed. -/
def readTag : Str → List Str → Option (List Str)
  | '/' :: closed, opened :: stack => if closed = opened then some stack else none
  | '/' :: _, [] => none
  | name, stack => some (name :: stack)

/-- `none` if the tags of the text do not close the open ones in the right order. Otherwise the
pieces of text in the innermost tags named `leaf`. -/
def scanTags (leaf : Str) : List Str → TagState → Str → Option (List Str)
  | [], .chars _, [] => some []
  | _, _, [] => none
  | stack, .chars cur, c :: s =>
      if c = '<' then
        (scanTags leaf stack (.tag []) s).map fun ts =>
          if stack.head? = some leaf then cur :: ts else ts
      else if c = '>' then none
      else scanTags leaf stack (.chars (cur ++ [c])) s
  | stack, .tag name, c :: s =>
      if c = '<' then none
      else if c = '>' then
        (readTag name stack).bind fun stack => scanTags leaf stack (.chars []) s
      else scanTags leaf stack (.tag (name ++ [c])) s

def tagged (name s : Str) : Str := '<' :: name ++ '>' :: s ++ '<' :: '/' :: name ++ ['>']

/-- Character data, or the name of a tag. -/
def Unbracketed (t : Str) : Prop := '<' ∉ t ∧ '>' ∉ t

instance (t : Str) : Decidable (Unbracketed t) := inferInstanceAs (Decidable (_ ∧ _))

variable {leaf : Str}

/-! ## Single pieces -/

theorem Unbracketed.head {c : Char} {t : Str} (h : Unbracketed (c :: t)) :
    c ≠ '<' ∧ c ≠ '>' ∧ Unbracketed t :=
  ⟨fun hc => h.1 (hc ▸ List.mem_cons_self), fun hc => h.2 (hc ▸ List.mem_cons_self),
    fun ht => h.1 (List.mem_cons_of_mem _ ht), fun ht => h.2 (List.mem_cons_of_mem _ ht)⟩

theorem scanTags_chars {t : Str} (ht : Unbracketed t) (stack : List Str) (cur rest : Str) :
    scanTags leaf stack (.chars cur) (t ++ rest) = scanTags leaf stack (.chars (cur ++ t)) rest := by
  induction t generalizing cur with
  | nil => simp
  | cons c t ih =>
      obtain ⟨hl, hr, ht⟩ := ht.head
      rw [List.cons_append, scanTags, if_neg hl, if_neg hr, ih ht]
      simp

theorem scanTags_name {t : Str} (ht : Unbracketed t) (stack : List Str) (name rest : Str) :
    scanTags leaf stack (.tag name) (t ++ rest) = scanTags leaf stack (.tag (name ++ t)) rest := by
  induction t generalizing name with
  | nil => simp
  | cons c t ih =>
      obtain ⟨hl, hr, ht⟩ := ht.head
      rw [List.cons_append, scanTags, if_neg hl, if_neg hr, ih ht]
      simp

theorem scanTags_open {name : Str} (hn : Unbracketed name) (hslash : name.head? ≠ some '/')
    {stack : List Str} (hs : stack.head? ≠ some leaf) (cur rest : Str) :
    scanTags leaf stack (.chars cur) ('<' :: (name ++ '>' :: rest))
      = scanTags leaf (name :: stack) (.chars []) rest := by
  have hread : readTag name stack = some (name :: stack) := by
    unfold readTag
    split
    · exact absurd rfl hslash
    · exact absurd rfl hslash
    · rfl
  rw [scanTags, if_pos rfl, scanTags_name hn, List.nil_append, scanTags, if_neg (by decide),
    if_pos rfl, hread]
  simp [hs]

theorem scanTags_close {name : Str} (hn : Unbracketed name) (stack : List Str) (cur rest : Str) :
    scanTags leaf (name :: stack) (.chars cur) ('<' :: '/' :: (name ++ '>' :: rest))
      = (scanTags leaf stack (.chars []) rest).map fun ts =>
          if name = leaf then cur :: ts else ts := by
  have hname : Unbracketed ('/' :: name) :=
    ⟨by simpa using hn.1, by simpa using hn.2⟩
  rw [scanTags, if_pos rfl, ← List.cons_append, scanTags_name hname, List.nil_append, scanTags,
    if_neg (by decide), if_pos rfl, readTag, if_pos rfl]
  simp

/-! ## Nested texts -/

/-- Wherever the text stands outside the leaves, it leaves the stack as it is. -/
def Nested (leaf s : Str) (ts : List Str) : Prop :=
  ∀ (stack : List Str) (cur rest : Str), stack.head? ≠ some leaf → ∃ cur',
    scanTags leaf stack (.chars cur) (s ++ rest)
      = (scanTags leaf stack (.chars cur') rest).map (ts ++ ·)

theorem Nested.nil : Nested leaf [] [] := fun _ cur _ _ => ⟨cur, by simp⟩

theorem Nested.append {s s' : Str} {ts ts' : List Str} (h : Nested leaf s ts)
    (h' : Nested leaf s' ts') : Nested leaf (s ++ s') (ts ++ ts') := by
  intro stack cur rest hs
  obtain ⟨cur₁, h₁⟩ := h stack cur (s' ++ rest) hs
  obtain ⟨cur₂, h₂⟩ := h' stack cur₁ rest hs
  refine ⟨cur₂, ?_⟩
  rw [List.append_assoc, h₁, h₂, Option.map_map]
  congr 1
  funext us
  simp

theorem Nested.chars {t : Str} (ht : Unbracketed t) : Nested leaf t [] := by
  intro stack cur rest _
  exact ⟨cur ++ t, by simp [scanTags_chars ht]⟩

theorem Nested.text {t : Str} (hleaf : Unbracketed leaf) (hslash : leaf.head? ≠ some '/')
    (ht : Unbracketed t) : Nested leaf (tagged leaf t) [t] := by
  intro stack cur rest hs
  refine ⟨[], ?_⟩
  have hform : tagged leaf t ++ rest
      = '<' :: (leaf ++ '>' :: (t ++ '<' :: '/' :: (leaf ++ '>' :: rest))) := by
    simp [tagged]
  rw [hform, scanTags_open hleaf hslash hs, scanTags_chars ht, List.nil_append,
    scanTags_close hleaf]
  simp

theorem Nested.tag {name s : Str} {ts : List Str} (hn : Unbracketed name)
    (hslash : name.head? ≠ some '/') (hne : name ≠ leaf) (h : Nested leaf s ts) :
    Nested leaf (tagged name s) ts := by
  intro stack cur rest hs
  have hform : tagged name s ++ rest
      = '<' :: (name ++ '>' :: (s ++ '<' :: '/' :: (name ++ '>' :: rest))) := by
    simp [tagged]
  obtain ⟨cur', hbody⟩ := h (name :: stack) [] ('<' :: '/' :: (name ++ '>' :: rest))
    (by simpa using hne)
  refine ⟨[], ?_⟩
  rw [hform, scanTags_open hn hslash hs, hbody, scanTags_close hn]
  simp [hne]

theorem Nested.scanTags {s : Str} {ts : List Str} (h : Nested leaf s ts) :
    scanTags leaf [] (.chars []) s = some ts := by
  obtain ⟨cur, hscan⟩ := h [] [] [] (by simp)
  rw [List.append_nil] at hscan
  rw [hscan]
  simp [Lib.scanTags]

end Freehal.Lib
