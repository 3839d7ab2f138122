import Freehal.Wiki.Page

/-!
# When the search of a page ends

The search goes on at the first list link that leads to a page. It ends when it never comes to a
page twice.
-/

namespace Freehal.Wiki

open Lib (walk NeverRepeats ends_iff_neverRepeats neverRepeats_of_ends walk_ne_none_of_repeats)

/-! ## The loop over the commas -/

theorem find_singleton {text : Str} {c : Char} {pos i : Nat} (h : find text [c] pos = some i) :
    pos ≤ i ∧ i < text.length := by
  have hfound := List.find?_some h
  simp only [Bool.and_eq_true, decide_eq_true_eq] at hfound
  refine ⟨hfound.1, ?_⟩
  by_contra hge
  rw [List.drop_eq_nil_of_le (by omega)] at hfound
  cases hfound.2

/-- Every round begins behind the comma of the one before. -/
theorem exists_shortenObject {fuel start : Nat} {object : Str} (h : object.length - start < fuel) :
    ∃ shortened, shortenObject fuel start object = some shortened := by
  induction fuel generalizing start object with
  | zero => omega
  | succ fuel ih =>
      rw [shortenObject]
      cases hfind : find object [','] start with
      | none => exact ⟨_, rfl⟩
      | some stop =>
          obtain ⟨hle, hlt⟩ := find_singleton hfind
          by_cases hletter : foundBigLetter object stop = true
          · exact ⟨_, if_pos hletter⟩
          · simp only [hletter, if_false, Bool.false_eq_true]
            exact ih (by rw [List.length_set]; omega)

/-! ## The links of a page -/

variable (lang entityUpper : Str)

/-- What is done with the line leaves the loop. -/
def Rest.leaves : Rest → Bool
  | .next => false
  | .stop => true
  | .fact _ object => isLast object

/-- The pages that are searched, as long as there are no facts on them. -/
def linksOf : Counters → List Str → List Str
  | _, [] => []
  | c, line :: lines =>
      let result := readLine lang entityUpper line c
      result.link.toList ++
        if result.rest.leaves then [] else linksOf result.counters lines

variable {lang entityUpper} {uninitialized : Str → Nat} {search : Str → Option Facts}

/-- The first search that returns no null pointer decides. -/
theorem searchLines_isSome (c : Counters) (first : Option Fact) (lines : List Str) :
    (searchLines lang entityUpper uninitialized search c first lines).isSome =
        (((linksOf lang entityUpper c lines).find? fun page => search page ≠ some .null).all
          fun page => (search page).isSome) ∧
      searchLines lang entityUpper uninitialized search c first lines ≠ some .null := by
  induction lines generalizing c first with
  | nil => simp [searchLines, linksOf]
  | cons line lines ih =>
      rw [searchLines, linksOf]
      generalize readLine lang entityUpper line c = result
      obtain ⟨counters, link, rest⟩ := result
      generalize hafter : finishLine uninitialized
        (fun first => searchLines lang entityUpper uninitialized search counters first lines) first
          rest = after
      have hrest : after.isSome = (((if rest.leaves then [] else
          linksOf lang entityUpper counters lines).find? fun page => search page ≠ some .null).all
            fun page => (search page).isSome) ∧ after ≠ some .null := by
        rw [← hafter]
        cases rest with
        | next => exact ih counters first
        | stop => simp [finishLine, Rest.leaves]
        | fact fact object =>
            obtain ⟨shortened, hshortened⟩ := @exists_shortenObject (object.length + 1)
              (uninitialized object) object (by omega)
            simp only [finishLine, hshortened, Option.bind_eq_bind, Option.bind_some]
            by_cases hlast : isLast object = true
            · simp [Rest.leaves, hlast]
            · simpa [Rest.leaves, hlast] using ih counters (some fact)
      cases link with
      | none => exact hrest
      | some page =>
          simp only [searchLink, Option.toList_some, List.singleton_append, List.find?_cons]
          cases hsearch : search page with
          | none => simp [hsearch]
          | some facts =>
              cases facts with
              | null => simpa using hrest
              | array first => simp [hsearch]

/-! ## Following the links -/

/-- The pages that a page leads to. -/
def linksOfPage (lang entityUpper file : Str) : List Str :=
  linksOf lang entityUpper ⟨1, 0, 0, 0⟩ (splitLines file)

/-- The address of the page at which the search goes on. -/
def follow (lang entityUpper : Str) (downloadFromUrl : Str → Str) (url : Str) : Option Str :=
  if downloadFromUrl url = [] then none
  else ((linksOfPage lang entityUpper (downloadFromUrl url)).find? fun link =>
    downloadFromUrl (urlOf lang link) ≠ []).map (urlOf lang)

variable {downloadFromUrl : Str → Str} {page : Str}

theorem follow_exists {url next : Str}
    (h : follow lang entityUpper downloadFromUrl url = some next) : downloadFromUrl next ≠ [] := by
  unfold follow at h
  split at h
  · cases h
  · obtain ⟨link, hlink, rfl⟩ := Option.map_eq_some_iff.mp h
    simpa using List.find?_some hlink

theorem searchFactsWikiPage_of_none (fuel : Nat) (h : downloadFromUrl (urlOf lang page) = []) :
    searchFactsWikiPage lang entityUpper uninitialized downloadFromUrl (fuel + 1) page =
      some .null := by
  rw [searchFactsWikiPage, h]
  split <;> rfl

theorem searchFactsWikiPage_of_page (hentity : 3 ≤ entityUpper.length) (fuel : Nat)
    (h : downloadFromUrl (urlOf lang page) ≠ []) :
    searchFactsWikiPage lang entityUpper uninitialized downloadFromUrl (fuel + 1) page =
      searchLines lang entityUpper uninitialized
        (searchFactsWikiPage lang entityUpper uninitialized downloadFromUrl fuel) ⟨1, 0, 0, 0⟩ none
          (splitLines (downloadFromUrl (urlOf lang page))) := by
  rw [searchFactsWikiPage, if_neg (by omega)]
  exact if_neg (mt List.length_eq_zero_iff.mp h)

theorem searchFactsWikiPage_ne_null (hentity : 3 ≤ entityUpper.length) (fuel : Nat) (page : Str) :
    searchFactsWikiPage lang entityUpper uninitialized downloadFromUrl (fuel + 1) page ≠
      some .null ↔ downloadFromUrl (urlOf lang page) ≠ [] := by
  by_cases hpage : downloadFromUrl (urlOf lang page) = []
  · simp [searchFactsWikiPage_of_none fuel hpage, hpage]
  · rw [searchFactsWikiPage_of_page hentity fuel hpage]
    exact iff_of_true (searchLines_isSome _ _ _).2 hpage

/-- The search returns if the search of the page at which it goes on does. -/
theorem searchFactsWikiPage_step (hentity : 3 ≤ entityUpper.length) (fuel : Nat)
    (h : downloadFromUrl (urlOf lang page) ≠ []) :
    (searchFactsWikiPage lang entityUpper uninitialized downloadFromUrl (fuel + 2) page).isSome =
      ((linksOfPage lang entityUpper (downloadFromUrl (urlOf lang page))).find? fun link =>
        downloadFromUrl (urlOf lang link) ≠ []).all fun link =>
          (searchFactsWikiPage lang entityUpper uninitialized downloadFromUrl (fuel + 1)
            link).isSome := by
  have hlinks : (fun link => decide (searchFactsWikiPage lang entityUpper uninitialized
      downloadFromUrl (fuel + 1) link ≠ some .null)) =
        fun link => decide (downloadFromUrl (urlOf lang link) ≠ []) :=
    funext fun link => decide_eq_decide.mpr (searchFactsWikiPage_ne_null hentity fuel link)
  rw [searchFactsWikiPage_of_page hentity (fuel + 1) h, (searchLines_isSome _ _ _).1, hlinks]
  rfl

theorem walk_of_searchFactsWikiPage (hentity : 3 ≤ entityUpper.length) {fuel : Nat}
    (h : (searchFactsWikiPage lang entityUpper uninitialized downloadFromUrl fuel page).isSome) :
    walk (follow lang entityUpper downloadFromUrl) fuel (urlOf lang page) = none := by
  induction fuel generalizing page with
  | zero => cases h
  | succ fuel ih =>
      rw [walk, follow]
      by_cases hpage : downloadFromUrl (urlOf lang page) = []
      · rw [if_pos hpage, Option.bind_none]
      · rw [if_neg hpage]
        cases fuel with
        | zero =>
            rw [searchFactsWikiPage_of_page hentity 0 hpage, (searchLines_isSome _ _ _).1] at h
            have hlinks : linksOfPage lang entityUpper (downloadFromUrl (urlOf lang page)) = [] := by
              rw [linksOfPage]
              cases hlinks : linksOf lang entityUpper ⟨1, 0, 0, 0⟩
                  (splitLines (downloadFromUrl (urlOf lang page))) with
              | nil => rfl
              | cons link links =>
                  rw [hlinks] at h
                  simp [searchFactsWikiPage] at h
            rw [hlinks, List.find?_nil, Option.map_none, Option.bind_none]
        | succ fuel =>
            rw [searchFactsWikiPage_step hentity fuel hpage] at h
            generalize List.find? _ _ = found at h
            cases found with
            | none => rfl
            | some link => exact ih h

theorem searchFactsWikiPage_of_walk (hentity : 3 ≤ entityUpper.length) {fuel : Nat}
    (h : walk (follow lang entityUpper downloadFromUrl) fuel (urlOf lang page) = none) :
    (searchFactsWikiPage lang entityUpper uninitialized downloadFromUrl (fuel + 1)
      page).isSome := by
  induction fuel generalizing page with
  | zero => cases h
  | succ fuel ih =>
      by_cases hpage : downloadFromUrl (urlOf lang page) = []
      · rw [searchFactsWikiPage_of_none _ hpage, Option.isSome_some]
      · rw [walk, follow, if_neg hpage] at h
        rw [searchFactsWikiPage_step hentity fuel hpage]
        generalize List.find? _ _ = found at h ⊢
        cases found with
        | none => rfl
        | some link => exact ih h

/-- In a finite web the search ends exactly when it never comes to a page twice. -/
theorem searchFactsWikiPage_ends_iff
    (hfinite : {url | downloadFromUrl url ≠ []}.Finite) :
    (∃ fuel facts, searchFactsWikiPage lang entityUpper uninitialized downloadFromUrl fuel page =
        some facts) ↔
      entityUpper.length < 3 ∨
        NeverRepeats (follow lang entityUpper downloadFromUrl) (urlOf lang page) := by
  simp only [← Option.isSome_iff_exists]
  by_cases hentity : entityUpper.length < 3
  · refine iff_of_true ⟨1, ?_⟩ (Or.inl hentity)
    rw [searchFactsWikiPage, if_pos hentity, Option.isSome_some]
  · rw [or_iff_right hentity, ← ends_iff_neverRepeats hfinite (fun _ _ => follow_exists)]
    have hlong : 3 ≤ entityUpper.length := Nat.not_lt.mp hentity
    constructor
    · rintro ⟨fuel, h⟩
      exact ⟨fuel, walk_of_searchFactsWikiPage hlong h⟩
    · rintro ⟨fuel, h⟩
      exact ⟨fuel + 1, searchFactsWikiPage_of_walk hlong h⟩

/-- A list that leads to a page. -/
def listPage (page : String) : Str :=
  ("<div class=\"noprint\">\n<ul>\n<li><a href=\"" ++ page ++ "\">Siehe dort</a>").toList

def listWeb (page : String) (url : Str) : Str :=
  if url = "de.wikipedia.org/wiki/Kater".toList then listPage page else []

theorem listWeb_finite (page : String) : {url | listWeb page url ≠ []}.Finite :=
  (Set.finite_singleton "de.wikipedia.org/wiki/Kater".toList).subset fun url hurl => by
    by_contra hne
    exact hurl (if_neg hne)

theorem searchFactsWikiPage_ends_katze : ∃ fuel facts,
    searchFactsWikiPage "de".toList "KATER".toList (fun _ => 0) (listWeb "/wiki/Katze") fuel
      "/wiki/Kater".toList = some facts := by
  refine (searchFactsWikiPage_ends_iff (listWeb_finite "/wiki/Katze")).mpr (Or.inr ?_)
  exact @neverRepeats_of_ends _ _ _ 1 (by decide +kernel)

/-- The list leads to the page it stands on. -/
theorem searchFactsWikiPage_kater : {url | listWeb "/wiki/Kater" url ≠ []}.Finite ∧
    ∀ fuel, searchFactsWikiPage "de".toList "KATER".toList (fun _ => 0) (listWeb "/wiki/Kater") fuel
      "/wiki/Kater".toList = none := by
  refine ⟨listWeb_finite _, fun fuel => ?_⟩
  have hfollow : walk (follow "de".toList "KATER".toList (listWeb "/wiki/Kater")) 1
      (urlOf "de".toList "/wiki/Kater".toList) =
        some (urlOf "de".toList "/wiki/Kater".toList) := by decide +kernel
  by_contra hreturns
  exact walk_ne_none_of_repeats Nat.zero_lt_one rfl hfollow fuel
    (walk_of_searchFactsWikiPage (by decide) (Option.isSome_iff_ne_none.mpr hreturns))

end Freehal.Wiki
