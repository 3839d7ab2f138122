import Freehal.Lib.Tags
import Freehal.Grammar.Theorems

/-!
# Parse trees as XML

`Entity.toXml`: the tags of the output are nested, and between them stand the texts of the leaves.
A node with a text is a leaf, whatever is embedded in it.
-/

namespace Freehal.Grammar
open Lib

/-! ## Printing -/

/-- The first marker, or the key of an entity without markers. -/
def Entity.grammarKey (e : Entity) : Str := e.virt.head?.getD e.toKey

/-- The name of the tag of a node; most nodes have none. -/
def xmlKey (grammarKey : Str) : Str :=
  if grammarKey = "s-all".toList then "fact".toList
  else if grammarKey = "v-subject".toList then "subject".toList
  else if grammarKey = "v-object".toList then "object".toList
  else if grammarKey = "v-questionword".toList then "questionword".toList
  else if startsWith "v-extra-" grammarKey then "extra".toList
  else if grammarKey = "v-verb".toList then "verb".toList
  else if startsWith "v-clause-" grammarKey ∧ grammarKey ≠ "v-clause-1".toList then "clause".toList
  else if grammarKey = "v-adverb".toList then "adverbs".toList
  else if grammarKey = "v-linked".toList then "linked".toList
  else if grammarKey = "d-linking".toList then "linking".toList
  else []

def isAndText (text : Str) : Bool :=
  text.contains '&' || text = "und".toList || text = "and".toList

def isOrText (text : Str) : Bool :=
  text.contains '|' || text = "oder".toList || text = "or".toList

/-- `linkKey` and `ssLink` after one linked object. -/
def addLinked (link : Str × Str) (embeddedText embedded2 : Str) : Str × Str :=
  if isAndText embeddedText then ("link_&".toList, link.2)
  else if isOrText embeddedText then ("link_|".toList, link.2)
  else (link.1, link.2 ++ embedded2)

def wrapKey (level : Nat) (key ssEmbed : Str) : Str :=
  if key ≠ [] then
    if level = 0 then
      '<' :: key ++ ">\n".toList ++ ssEmbed ++ "</".toList ++ key ++ ">\n".toList
    else if level = 1 then '<' :: key ++ ['>'] ++ ssEmbed ++ "</".toList ++ key ++ ">\n".toList
    else '<' :: key ++ ['>'] ++ ssEmbed ++ "</".toList ++ key ++ ['>']
  else ssEmbed

mutual
def Entity.toXmlAt (level : Nat) : Entity → Str
  | ⟨data, symbol, repl, virt, text, embed, order⟩ =>
      let grammarKey := Entity.grammarKey ⟨data, symbol, repl, virt, text, [], order⟩
      let key := xmlKey grammarKey
      let level := if key = "clause".toList then 0 else level
      if grammarKey = "d-linking".toList ∨ grammarKey = "d-komma".toList then []
      else
        wrapKey level key
          (if text ≠ [] then "<text>".toList ++ text ++ "</text>".toList
          else embedXml (if key ≠ [] then level + 1 else level) none embed)

/-- The loop over the embedded entities. `link` holds the variables of the inner loop while it
runs, which is as long as the entities are linked ones. -/
def embedXml (level : Nat) (link : Option (Str × Str)) : List Entity → Str
  | [] => (link.map fun l => tagged l.1 l.2).getD []
  | it :: embed =>
      if startsWith "v-link" it.grammarKey then
        embedXml level
          (some (addLinked (link.getD ("link_?".toList, [])) it.text (it.toXmlAt level))) embed
      else
        (link.map fun l => tagged l.1 l.2).getD [] ++ it.toXmlAt level ++ embedXml level none embed
end

def Entity.toXml (e : Entity) : Str := e.toXmlAt 0

/-! ## The texts of a tree -/

/-- A linked child that only says how the others are linked. -/
def Entity.isConnective (e : Entity) : Bool :=
  startsWith "v-link" e.grammarKey && (isAndText e.text || isOrText e.text)

mutual
/-- The texts of the leaves from left to right, without what is below a linking or a comma and
without connectives. -/
def Entity.shownTexts : Entity → List Str
  | ⟨data, symbol, repl, virt, text, embed, order⟩ =>
      let grammarKey := Entity.grammarKey ⟨data, symbol, repl, virt, text, [], order⟩
      if grammarKey = "d-linking".toList ∨ grammarKey = "d-komma".toList then []
      else if text ≠ [] then [text]
      else shownTextsList embed

def shownTextsList : List Entity → List Str
  | [] => []
  | it :: embed => (if it.isConnective then [] else it.shownTexts) ++ shownTextsList embed
end

/-- Every tag is closed, in the right order, and these are the pieces of text between the tags
`text`. -/
def NestedXml (s : Str) (texts : List Str) : Prop :=
  scanTags "text".toList [] (.chars []) s = some texts

/-! ## Tags -/

abbrev textTag : Str := "text".toList

/-- The names of the tags other than that of a text. -/
def tagNames : List Str :=
  ["fact", "subject", "object", "questionword", "extra", "verb", "clause", "adverbs", "linked",
    "linking", "link_?", "link_&", "link_|"].map String.toList

theorem Nested.named {name s : Str} {ts : List Str} (hn : name ∈ tagNames)
    (h : Nested textTag s ts) : Nested textTag (tagged name s) ts := by
  have hall : ∀ name ∈ tagNames, ('<' ∉ name ∧ '>' ∉ name) ∧ name.head? ≠ some '/' ∧
      name ≠ textTag := by
    decide
  obtain ⟨hname, hslash, hne⟩ := hall name hn
  exact h.tag hname hslash hne

theorem xmlKey_mem (grammarKey : Str) :
    xmlKey grammarKey = [] ∨ xmlKey grammarKey ∈ tagNames := by
  unfold xmlKey
  split_ifs <;> first | exact Or.inl rfl | exact Or.inr (by decide)

theorem nested_newline : Nested textTag ['\n'] [] :=
  Nested.chars ⟨by decide, by decide⟩

theorem nested_text {text : Str} (h : Unbracketed text) :
    Nested textTag ("<text>".toList ++ text ++ "</text>".toList) [text] := by
  have hform : "<text>".toList ++ text ++ "</text>".toList = tagged textTag text := by
    simp [tagged, textTag]
  rw [hform]
  exact Nested.text ⟨by decide, by decide⟩ (by decide) h

theorem nested_wrapKey {level : Nat} {key ssEmbed : Str} {ts : List Str}
    (hkey : key = [] ∨ key ∈ tagNames) (h : Nested textTag ssEmbed ts) :
    Nested textTag (wrapKey level key ssEmbed) ts := by
  unfold wrapKey
  split
  · rename_i hne
    have hname := hkey.resolve_left hne
    split
    · have hform : '<' :: key ++ ">\n".toList ++ ssEmbed ++ "</".toList ++ key ++ ">\n".toList
          = tagged key (['\n'] ++ ssEmbed) ++ ['\n'] := by
        simp [tagged]
      rw [hform]
      simpa using (Nested.named hname (nested_newline.append h)).append nested_newline
    split
    · have hform : '<' :: key ++ ['>'] ++ ssEmbed ++ "</".toList ++ key ++ ">\n".toList
          = tagged key ssEmbed ++ ['\n'] := by
        simp [tagged]
      rw [hform]
      simpa using (Nested.named hname h).append nested_newline
    · have hform : '<' :: key ++ ['>'] ++ ssEmbed ++ "</".toList ++ key ++ ['>']
          = tagged key ssEmbed := by
        simp [tagged]
      rw [hform]
      exact Nested.named hname h
  · exact h

/-! ## Linked objects -/

/-- What the inner loop has collected. -/
def LinkOk (link : Option (Str × Str)) (ts : List Str) : Prop :=
  match link with
  | none => ts = []
  | some l => l.1 ∈ tagNames ∧ Nested textTag l.2 ts

theorem LinkOk.nested {link : Option (Str × Str)} {ts : List Str} (h : LinkOk link ts) :
    Nested textTag ((link.map fun l => tagged l.1 l.2).getD []) ts := by
  cases link with
  | none =>
      obtain rfl : ts = [] := h
      exact Nested.nil
  | some l => exact Nested.named h.1 h.2

theorem LinkOk.addLinked {link : Option (Str × Str)} {ts : List Str} (h : LinkOk link ts)
    {it : Entity} {xml : Str} (hlinked : startsWith "v-link" it.grammarKey)
    (hxml : it.isConnective = false → Nested textTag xml it.shownTexts) :
    LinkOk (some (addLinked (link.getD ("link_?".toList, [])) it.text xml))
      (ts ++ if it.isConnective then [] else it.shownTexts) := by
  have hstart : LinkOk (some (link.getD ("link_?".toList, []))) ts := by
    cases link with
    | none =>
        obtain rfl : ts = [] := h
        exact ⟨by decide, Nested.nil⟩
    | some l => exact h
  have hconnective : it.isConnective = (isAndText it.text || isOrText it.text) := by
    rw [Entity.isConnective, hlinked, Bool.true_and]
  unfold Grammar.addLinked
  split
  · rename_i hand
    rw [hconnective, hand, Bool.true_or, if_pos rfl, List.append_nil]
    exact ⟨show "link_&".toList ∈ tagNames by decide, hstart.2⟩
  split
  · rename_i hor
    rw [hconnective, hor, Bool.or_true, if_pos rfl, List.append_nil]
    exact ⟨show "link_|".toList ∈ tagNames by decide, hstart.2⟩
  · rename_i hand hor
    have hno : it.isConnective = false := by
      rw [hconnective, (Bool.not_eq_true _).mp hand, (Bool.not_eq_true _).mp hor]
      rfl
    rw [hno]
    exact ⟨hstart.1, hstart.2.append (hxml hno)⟩

/-! ## The whole tree -/

theorem isConnective_of_not_linked {it : Entity} (h : ¬ startsWith "v-link" it.grammarKey) :
    it.isConnective = false := by
  simp [Entity.isConnective, h]

mutual
theorem toXmlAt_nested (level : Nat) : (e : Entity) → (∀ t ∈ e.shownTexts, Unbracketed t) →
    Nested textTag (e.toXmlAt level) e.shownTexts
  | ⟨data, symbol, repl, virt, text, embed, order⟩, h => by
      simp only [Entity.toXmlAt, Entity.shownTexts] at h ⊢
      split
      · exact Nested.nil
      · rename_i hkey
        rw [if_neg hkey] at h
        refine nested_wrapKey (xmlKey_mem _) ?_
        split
        · rename_i htext
          rw [if_pos htext] at h
          exact nested_text (h text List.mem_cons_self)
        · rename_i htext
          rw [if_neg htext] at h
          exact embedXml_nested _ embed h none [] rfl

theorem embedXml_nested (level : Nat) : (embed : List Entity) →
    (∀ t ∈ shownTextsList embed, Unbracketed t) → (link : Option (Str × Str)) → (ts : List Str) →
    LinkOk link ts → Nested textTag (embedXml level link embed) (ts ++ shownTextsList embed)
  | [], _, _, _, hlink => by
      simpa only [embedXml, shownTextsList, List.append_nil] using hlink.nested
  | it :: embed, h, link, ts, hlink => by
      simp only [shownTextsList, List.mem_append] at h ⊢
      have hrest : ∀ t ∈ shownTextsList embed, Unbracketed t := fun t ht => h t (Or.inr ht)
      have hit : it.isConnective = false → Nested textTag (it.toXmlAt level) it.shownTexts :=
        fun hno => toXmlAt_nested level it fun t ht => h t (Or.inl (by rwa [hno]))
      unfold embedXml
      split
      · rename_i hlinked
        rw [← List.append_assoc]
        exact embedXml_nested level embed hrest _ _ (hlink.addLinked hlinked hit)
      · rename_i hlinked
        have hno := isConnective_of_not_linked hlinked
        have hsplit := (hlink.nested.append (hit hno)).append
          (embedXml_nested level embed hrest none [] rfl)
        simpa [hno] using hsplit
end

/-- The tags of the printed tree are nested and closed, and its pieces of text are the texts of
the leaves in their order, apart from linkings, commas and connectives. -/
theorem toXml_nested (e : Entity) (h : ∀ t ∈ e.shownTexts, Unbracketed t) :
    NestedXml e.toXml e.shownTexts :=
  (toXmlAt_nested 0 e h).scanTags

/-- Two subjects and the connective between them, and a comma. -/
def linkedSubjects : Entity :=
  let leaf (marker text : String) : Entity := { virt := [marker.toList], text := text.toList }
  { symbol := "s-all".toList
    embed := [
      { virt := ["v-subject".toList]
        embed := [leaf "v-linked" "cats", leaf "v-link" "and", leaf "v-linked" "dogs"] },
      leaf "d-komma" ",", leaf "v-verb" "sleep"] }

theorem toXml_nested_linked :
    linkedSubjects.shownTexts = ["cats", "dogs", "sleep"].map String.toList ∧
      NestedXml linkedSubjects.toXml linkedSubjects.shownTexts :=
  ⟨by decide +kernel, toXml_nested linkedSubjects (by decide +kernel)⟩

end Freehal.Grammar
