import Mathlib
import StylePrune.Proofs.Sampling.Fate

/-!
Which sheets a scan meets. It goes depth first and enters each locator once; if it gets through, it has entered just
those that references lead to, and it gets through unless one of them is at fault or imports lead too deep.
-/

set_option autoImplicit false

namespace StylePrune.Sampling

variable {s : Sources} {p : Html.Page}

/-- A reference that is met, and the locator of the sheet that it stands in, if it does not stand in the page. -/
inductive Met (s : Sources) (p : Html.Page) : Option Text → Text → Prop
  | link {href : Text} (h : href ∈ p.stylesheetLinks) : Met s p none href
  | style {css file : Text} {sheet : Css.Sheet} {i : Text × Option Text} (hcss : css ∈ p.styles)
      (hf : styleFate css = .read file sheet) (hi : i ∈ importsOf sheet) : Met s p none i.1
  | sheet {base : Option Text} {ref url file : Text} {sheet : Css.Sheet} {i : Text × Option Text}
      (h : Met s p base ref) (hr : resolve s.pageUrl ref base = .ok url) (hf : s.fate url = .read file sheet)
      (hi : i ∈ importsOf sheet) : Met s p (some url) i.1

def Reached (s : Sources) (p : Html.Page) (url : Text) : Prop :=
  ∃ base ref, Met s p base ref ∧ resolve s.pageUrl ref base = .ok url

/-- What is met ends a scan. -/
inductive Faulty (s : Sources) (p : Html.Page) : ScanError → Prop
  | reference {base : Option Text} {ref : Text} {e : Url.Error} (h : Met s p base ref)
      (he : resolve s.pageUrl ref base = .error e) : Faulty s p (.reference e)
  | sheet {url : Text} {e : ScanError} (h : Reached s p url) (he : s.fate url = .fatal e) : Faulty s p e
  | style {css : Text} {e : ScanError} (h : css ∈ p.styles) (he : styleFate css = .fatal e) :
      Faulty s p e

/-- The first sheet imports the second one. -/
def Sources.Imports (s : Sources) (url url' : Text) : Prop :=
  ∃ file sheet, s.fate url = .read file sheet ∧ ∃ i ∈ importsOf sheet, resolve s.pageUrl i.1 (some url) = .ok url'

/-- Sheets, each of which imports the next, of which there are too many. -/
def Deep (s : Sources) (p : Html.Page) : Prop :=
  ∃ urls : List Text, urls.length = importDepth + 1 ∧ urls.Nodup ∧ urls.IsChain s.Imports ∧ ∀ url ∈ urls, Reached s p url

theorem Reached.met {url file : Text} {sheet : Css.Sheet} {i : Text × Option Text} (h : Reached s p url)
    (hf : s.fate url = .read file sheet) (hi : i ∈ importsOf sheet) : Met s p (some url) i.1 := by
  obtain ⟨base, ref, hm, hr⟩ := h
  exact .sheet hm hr hf hi

/-! ## What was entered -/

/-- Every reference leads to a locator that was visited. -/
def Sources.Covers (s : Sources) (visited : List Text) (base : Option Text) (refs : List Text) : Prop :=
  ∀ ref ∈ refs, ∃ url, resolve s.pageUrl ref base = .ok url ∧ url ∈ visited

/-- A fate that is not fatal, of a sheet whose imports were all visited. -/
structure Fate.Settled (s : Sources) (visited : List Text) (base : Option Text) (f : Fate) : Prop where
  survived : ∀ e, f ≠ .fatal e
  covers : ∀ file sheet, f = .read file sheet → s.Covers visited base ((importsOf sheet).map Prod.fst)

theorem Sources.Covers.mono {visited visited' : List Text} {base : Option Text} {refs : List Text}
    (h : s.Covers visited base refs) (hv : visited ⊆ visited') : s.Covers visited' base refs := by
  intro ref href
  obtain ⟨url, hr, hu⟩ := h ref href
  exact ⟨url, hr, hv hu⟩

theorem Fate.Settled.mono {visited visited' : List Text} {base : Option Text} {f : Fate}
    (h : f.Settled s visited base) (hv : visited ⊆ visited') : f.Settled s visited' base :=
  ⟨h.survived, fun file sheet hf => (h.covers file sheet hf).mono hv⟩

/-- From one collection to the next the locators `news` were entered, each after those that refer to it, and what was
noted comes from their fates and from `own` ones. -/
structure Explored (s : Sources) (p : Html.Page) (news : List Text) (own : List Fate) (c c' : Collection) : Prop where
  visited : c'.visited = news ++ c.visited
  nodup : news.Nodup
  unvisited : ∀ url ∈ news, url ∉ c.visited
  reached : ∀ url ∈ news, Reached s p url
  settled : ∀ url ∈ news, (s.fate url).Settled s c'.visited (some url)
  warnings : c'.warnings.Perm (c.warnings ++ (news.map s.fate ++ own).filterMap Fate.warning?)
  has : ∀ file selector, c'.Has file selector ↔
    c.Has file selector ∨ ∃ f ∈ news.map s.fate ++ own, f.Declares file selector

namespace Explored

variable {news news' : List Text} {own own' : List Fate} {c c' c'' : Collection}

theorem refl (s : Sources) (p : Html.Page) (c : Collection) : Explored s p [] [] c c where
  visited := rfl
  nodup := List.nodup_nil
  unvisited := by simp
  reached := by simp
  settled := by simp
  warnings := by simp
  has := by simp

theorem visited_subset (h : Explored s p news own c c') : c.visited ⊆ c'.visited := by
  rw [h.visited]
  exact List.subset_append_right _ _

theorem trans (h : Explored s p news own c c') (h' : Explored s p news' own' c' c'') :
    Explored s p (news' ++ news) (own ++ own') c c'' where
  visited := by rw [h'.visited, h.visited, List.append_assoc]
  nodup := by
    refine h'.nodup.append h.nodup fun url hu' hu => h'.unvisited url hu' ?_
    rw [h.visited]
    exact List.mem_append_left _ hu
  unvisited url hu := by
    rcases List.mem_append.1 hu with hu | hu
    · exact fun hv => h'.unvisited url hu (h.visited_subset hv)
    · exact h.unvisited url hu
  reached url hu := (List.mem_append.1 hu).elim (h'.reached url) (h.reached url)
  settled url hu := by
    rcases List.mem_append.1 hu with hu | hu
    · exact h'.settled url hu
    · exact (h.settled url hu).mono h'.visited_subset
  warnings := by
    refine h'.warnings.trans ((h.warnings.append_right _).trans ?_)
    simp only [List.map_append, List.filterMap_append, ← Multiset.coe_eq_coe, ← Multiset.coe_add]
    abel
  has file selector := by
    rw [h'.has, h.has, or_assoc]
    refine or_congr_right ?_
    simp only [List.map_append, List.mem_append, or_and_right, exists_or]
    rw [or_or_or_comm]
    exact or_congr_left or_comm

/-- The locator itself was entered first. -/
theorem enter {url : Text} {fetched : Bool} (hv : url ∉ c.visited) (hr : Reached s p url)
    (h : Explored s p news [s.fate url] (c.enter url fetched) c') (hf : (s.fate url).Settled s c'.visited (some url)) :
    Explored s p (news ++ [url]) [] c c' where
  visited := by
    rw [h.visited, List.append_assoc]
    rfl
  nodup := by
    refine h.nodup.append (List.nodup_singleton _) fun u hu hmem => h.unvisited u hu ?_
    exact List.mem_cons.2 (.inl (List.mem_singleton.1 hmem))
  unvisited u hu := by
    rcases List.mem_append.1 hu with hu | hu
    · exact fun hu' => h.unvisited u hu (List.mem_cons_of_mem _ hu')
    · rwa [List.mem_singleton.1 hu]
  reached u hu := by
    rcases List.mem_append.1 hu with hu | hu
    · exact h.reached u hu
    · rwa [List.mem_singleton.1 hu]
  settled u hu := by
    rcases List.mem_append.1 hu with hu | hu
    · exact h.settled u hu
    · rwa [List.mem_singleton.1 hu]
  warnings := by simpa using h.warnings
  has := by simpa using h.has

/-- The sheet's own selectors were found last. -/
theorem declare {file : Text} {media : Option Text} {sheet : Css.Sheet} (h : Explored s p news [] c c') :
    Explored s p news [.read file sheet] c (c'.declare file media sheet) where
  visited := h.visited
  nodup := h.nodup
  unvisited := h.unvisited
  reached := h.reached
  settled := h.settled
  warnings := by
    have hnone : Fate.warning? (.read file sheet) = none := rfl
    simpa [hnone] using h.warnings
  has f selector := by
    rw [Collection.has_declare, h.has]
    simp [Fate.Declares, or_and_right, exists_or, or_assoc, eq_comm]

end Explored

theorem explored_warn (s : Sources) (p : Html.Page) (c : Collection) (w : Text) :
    Explored s p [] [.failed w] c (c.warn w) where
  visited := rfl
  nodup := List.nodup_nil
  unvisited := by simp
  reached := by simp
  settled := by simp
  warnings := .rfl
  has f selector := by simp [Fate.Declares, Collection.Has, Collection.warn]

section Following

variable {follow : Follow}
  (hf : ∀ c url media c', Reached s p url → follow c url media = .ok c' →
    (∃ news, Explored s p news [] c c') ∧ url ∈ c'.visited)

include hf

theorem exists_explored_followAll {base media : Option Text} {is : List (Text × Option Text)} {c c' : Collection}
    (hm : ∀ i ∈ is, Met s p base i.1) (h : followAll follow s base media is c = .ok c') :
    (∃ news, Explored s p news [] c c') ∧ s.Covers c'.visited base (is.map Prod.fst) := by
  induction is generalizing c with
  | nil =>
    obtain rfl := Except.ok.inj h
    exact ⟨⟨[], .refl s p c⟩, by simp [Sources.Covers]⟩
  | cons i is ih =>
    obtain ⟨hi, hm⟩ := List.forall_mem_cons.1 hm
    rw [followAll] at h
    cases hr : resolve s.pageUrl i.1 base with
    | error e =>
      rw [hr] at h
      cases h
    | ok url =>
      rw [hr] at h
      dsimp only at h
      cases hc : follow c url (bothMedia media i.2) with
      | error e =>
        rw [hc] at h
        cases h
      | ok c₁ =>
        rw [hc] at h
        obtain ⟨⟨news, hnews⟩, hurl⟩ := hf c url _ c₁ ⟨base, i.1, hi, hr⟩ hc
        obtain ⟨⟨news', hnews'⟩, hcovers⟩ := ih hm h
        refine ⟨⟨_, hnews.trans hnews'⟩, ?_⟩
        rw [Sources.Covers, List.map_cons, List.forall_mem_cons]
        exact ⟨⟨url, hr, hnews'.visited_subset hurl⟩, hcovers⟩

theorem exists_explored_collect {base media : Option Text} {c c' : Collection} {f : Fate}
    (hm : ∀ file sheet, f = .read file sheet → ∀ i ∈ importsOf sheet, Met s p base i.1)
    (h : collect follow s base media c f = .ok c') :
    (∃ news, Explored s p news [f] c c') ∧ f.Settled s c'.visited base := by
  cases f with
  | fatal e => cases h
  | failed w =>
    obtain rfl := Except.ok.inj h
    exact ⟨⟨[], explored_warn s p c w⟩, by simp, by simp⟩
  | read file sheet =>
    rw [collect] at h
    cases hc : followAll follow s base media (importsOf sheet) c with
    | error e =>
      rw [hc] at h
      cases h
    | ok c₁ =>
      rw [hc] at h
      obtain rfl := Except.ok.inj h
      obtain ⟨⟨news, hnews⟩, hcovers⟩ := exists_explored_followAll hf (hm file sheet rfl) hc
      refine ⟨⟨news, hnews.declare⟩, by simp, ?_⟩
      rintro file' sheet' heq
      cases heq
      exact hcovers

end Following

theorem exists_explored_gatherFrom (depth : Nat) (c : Collection) (url : Text) (media : Option Text) (c' : Collection)
    (hr : Reached s p url) (h : gatherFrom s depth c url media = .ok c') :
    (∃ news, Explored s p news [] c c') ∧ url ∈ c'.visited := by
  induction depth generalizing c url media c' with
  | zero =>
    by_cases hv : url ∈ c.visited
    · rw [gatherFrom_of_mem hv] at h
      obtain rfl := Except.ok.inj h
      exact ⟨⟨[], .refl s p c⟩, hv⟩
    · rw [gatherFrom_zero hv] at h
      cases h
  | succ depth ih =>
    by_cases hv : url ∈ c.visited
    · rw [gatherFrom_of_mem hv] at h
      obtain rfl := Except.ok.inj h
      exact ⟨⟨[], .refl s p c⟩, hv⟩
    · obtain ⟨fetched, heq⟩ := gatherFrom_succ s depth media hv
      rw [heq] at h
      have hm (file : Text) (sheet : Css.Sheet) (hf : s.fate url = .read file sheet) (i : Text × Option Text)
          (hi : i ∈ importsOf sheet) : Met s p (some url) i.1 := hr.met hf hi
      obtain ⟨⟨news, hnews⟩, hsettled⟩ := exists_explored_collect ih hm h
      refine ⟨⟨_, hnews.enter hv hr hsettled⟩, hnews.visited_subset List.mem_cons_self⟩

/-! ## What ends a scan -/

section Following

variable {follow : Follow}
  (hf : ∀ c url media c', Reached s p url → follow c url media = .ok c' → c.visited ⊆ c'.visited)

include hf

/-- One of the references does not resolve, or its sheet cannot be followed from where no fewer locators were
visited. -/
theorem exists_of_followAll_eq_error {base media : Option Text} {is : List (Text × Option Text)} {c : Collection}
    {e : ScanError} (hm : ∀ i ∈ is, Met s p base i.1) (h : followAll follow s base media is c = .error e) :
    Faulty s p e ∨ ∃ i ∈ is, ∃ url c₁, resolve s.pageUrl i.1 base = .ok url ∧ c.visited ⊆ c₁.visited ∧
      follow c₁ url (bothMedia media i.2) = .error e := by
  induction is generalizing c with
  | nil => cases h
  | cons i is ih =>
    obtain ⟨hi, hm⟩ := List.forall_mem_cons.1 hm
    rw [followAll] at h
    cases hr : resolve s.pageUrl i.1 base with
    | error u =>
      rw [hr] at h
      obtain rfl := Except.error.inj h
      exact .inl (.reference hi hr)
    | ok url =>
      rw [hr] at h
      dsimp only at h
      cases hc : follow c url (bothMedia media i.2) with
      | error e' =>
        rw [hc] at h
        obtain rfl := Except.error.inj h
        exact .inr ⟨i, List.mem_cons_self, url, c, hr, List.Subset.refl _, hc⟩
      | ok c₁ =>
        rw [hc] at h
        have hsub := hf c url _ c₁ ⟨base, i.1, hi, hr⟩ hc
        refine (ih hm h).imp_right ?_
        rintro ⟨j, hj, url', c₂, hr', hsub', he⟩
        exact ⟨j, List.mem_cons_of_mem _ hj, url', c₂, hr', List.Subset.trans hsub hsub', he⟩

theorem exists_of_collect_eq_error {base media : Option Text} {c : Collection} {f : Fate} {e : ScanError}
    (hm : ∀ file sheet, f = .read file sheet → ∀ i ∈ importsOf sheet, Met s p base i.1)
    (hfatal : f = .fatal e → Faulty s p e) (h : collect follow s base media c f = .error e) :
    Faulty s p e ∨ ∃ file sheet, f = .read file sheet ∧ ∃ i ∈ importsOf sheet, ∃ url c₁,
      resolve s.pageUrl i.1 base = .ok url ∧ c.visited ⊆ c₁.visited ∧
        follow c₁ url (bothMedia media i.2) = .error e := by
  cases f with
  | fatal e' =>
    obtain rfl := Except.error.inj h
    exact .inl (hfatal rfl)
  | failed w => cases h
  | read file sheet =>
    rw [collect] at h
    cases hc : followAll follow s base media (importsOf sheet) c with
    | ok c₁ =>
      rw [hc] at h
      cases h
    | error e' =>
      rw [hc] at h
      obtain rfl := Except.error.inj h
      exact (exists_of_followAll_eq_error hf (hm file sheet rfl) hc).imp_right fun h => ⟨file, sheet, rfl, h⟩

end Following

theorem visited_subset_of_gatherFrom (depth : Nat) (c : Collection) (url : Text) (media : Option Text) (c' : Collection)
    (hr : Reached s p url) (h : gatherFrom s depth c url media = .ok c') : c.visited ⊆ c'.visited := by
  obtain ⟨⟨news, hnews⟩, -⟩ := exists_explored_gatherFrom depth c url media c' hr h
  exact hnews.visited_subset

/-- Sheets that import one another from a locator on, as many as can be followed and one more, and none visited. -/
structure Descent (s : Sources) (p : Html.Page) (depth : Nat) (visited : List Text) (url : Text) (urls : List Text) :
    Prop where
  length : urls.length = depth
  nodup : (url :: urls).Nodup
  chain : (url :: urls).IsChain s.Imports
  reached : ∀ u ∈ url :: urls, Reached s p u
  unvisited : ∀ u ∈ url :: urls, u ∉ visited

theorem Descent.deep {visited urls : List Text} {url : Text} (h : Descent s p importDepth visited url urls) :
    Deep s p := ⟨url :: urls, by rw [List.length_cons, h.length], h.nodup, h.chain, h.reached⟩

/-- A sheet that cannot be followed leads to a fault, or too deep. -/
theorem faulty_or_descent_of_gatherFrom {depth : Nat} {c : Collection} {url : Text} {media : Option Text}
    {e : ScanError} (hr : Reached s p url) (h : gatherFrom s depth c url media = .error e) :
    Faulty s p e ∨ e = .tooDeep ∧ ∃ urls, Descent s p depth c.visited url urls := by
  induction depth generalizing c url media with
  | zero =>
    by_cases hv : url ∈ c.visited
    · rw [gatherFrom_of_mem hv] at h
      cases h
    · rw [gatherFrom_zero hv] at h
      obtain rfl := Except.error.inj h
      exact .inr ⟨rfl, [], rfl, List.nodup_singleton _, List.isChain_singleton _, by simpa using hr, by simpa using hv⟩
  | succ depth ih =>
    by_cases hv : url ∈ c.visited
    · rw [gatherFrom_of_mem hv] at h
      cases h
    · obtain ⟨fetched, heq⟩ := gatherFrom_succ s depth media hv
      rw [heq] at h
      have hm (file : Text) (sheet : Css.Sheet) (hf : s.fate url = .read file sheet) (i : Text × Option Text)
          (hi : i ∈ importsOf sheet) : Met s p (some url) i.1 := hr.met hf hi
      rcases exists_of_collect_eq_error (visited_subset_of_gatherFrom depth) hm (.sheet hr) h with
        hfault | ⟨file, sheet, hf, i, hi, url', c₁, hr', hsub, he⟩
      · exact .inl hfault
      · refine (ih ⟨some url, i.1, hm file sheet hf i hi, hr'⟩ he).imp_right ?_
        rintro ⟨rfl, urls, hd⟩
        have hnot : ∀ u ∈ url' :: urls, u ∉ url :: c.visited := fun u hu hmem => hd.unvisited u hu (hsub hmem)
        refine ⟨rfl, url' :: urls, ?_, ?_, ?_, ?_, ?_⟩
        · rw [List.length_cons, hd.length]
        · exact List.nodup_cons.2 ⟨fun hmem => hnot url hmem List.mem_cons_self, hd.nodup⟩
        · exact List.isChain_cons_cons.2 ⟨⟨file, sheet, hf, i, hi, hr'⟩, hd.chain⟩
        · exact List.forall_mem_cons.2 ⟨hr, hd.reached⟩
        · exact List.forall_mem_cons.2 ⟨hv, fun u hu hmem => hnot u hu (List.mem_cons_of_mem _ hmem)⟩

/-! ## The whole page -/

/-- The page's own references to sheets. -/
def pageRefs (p : Html.Page) : List (Text × Option Text) := p.stylesheetLinks.map (·, none)

theorem met_of_mem_pageRefs {i : Text × Option Text} (hi : i ∈ pageRefs p) : Met s p none i.1 := by
  obtain ⟨href, hh, rfl⟩ := List.mem_map.1 hi
  exact .link hh

theorem exists_of_linkedUrls_go_eq_error {urls hrefs : List Text} {e : Url.Error}
    (h : linkedUrls.go s urls hrefs = .error e) : ∃ href ∈ hrefs, resolve s.pageUrl href none = .error e := by
  induction hrefs generalizing urls with
  | nil => cases h
  | cons href hrefs ih =>
    rw [linkedUrls.go] at h
    cases hr : resolve s.pageUrl href none with
    | error e' =>
      rw [hr] at h
      obtain rfl := Except.error.inj h
      exact ⟨href, List.mem_cons_self, hr⟩
    | ok url =>
      rw [hr] at h
      obtain ⟨href', hh, hr'⟩ := ih h
      exact ⟨href', List.mem_cons_of_mem _ hh, hr'⟩

theorem exists_append_of_linkedUrls_go {urls us hrefs : List Text} (h : linkedUrls.go s urls hrefs = .ok us) :
    ∃ rest, us = urls ++ rest := by
  induction hrefs generalizing urls with
  | nil => exact ⟨[], by rw [List.append_nil, Except.ok.inj h]⟩
  | cons href hrefs ih =>
    rw [linkedUrls.go] at h
    cases hr : resolve s.pageUrl href none with
    | error e =>
      rw [hr] at h
      cases h
    | ok url =>
      rw [hr] at h
      obtain ⟨rest, rfl⟩ := ih h
      split
      · exact ⟨rest, rfl⟩
      · exact ⟨url :: rest, List.append_assoc ..⟩

/-- Links are followed as imports are: a locator that is linked again was visited. -/
theorem gatherLinks_eq_followAll {urls rest hrefs : List Text} {c : Collection}
    (hm : ∀ href ∈ hrefs, href ∈ p.stylesheetLinks) (h : linkedUrls.go s urls hrefs = .ok (urls ++ rest))
    (hv : urls ⊆ c.visited) : gatherLinks s rest c =
      followAll (gatherFrom s importDepth) s none none (hrefs.map (·, none)) c := by
  induction hrefs generalizing urls rest c with
  | nil =>
    obtain rfl : rest = [] := by simpa [linkedUrls.go] using h
    rfl
  | cons href hrefs ih =>
    obtain ⟨hhref, hm⟩ := List.forall_mem_cons.1 hm
    rw [linkedUrls.go] at h
    cases hr : resolve s.pageUrl href none with
    | error e =>
      rw [hr] at h
      cases h
    | ok url =>
      rw [hr] at h
      dsimp only at h
      simp only [List.map_cons, followAll, hr, bothMedia]
      by_cases hmem : url ∈ urls
      · rw [if_pos hmem] at h
        rw [gatherFrom_of_mem (hv hmem)]
        exact ih hm h hv
      · rw [if_neg hmem] at h
        obtain ⟨rest', heq⟩ := exists_append_of_linkedUrls_go h
        obtain rfl : rest = url :: rest' := by simpa using heq
        rw [gatherLinks]
        cases hc : gatherFrom s importDepth c url none with
        | error e => rfl
        | ok c₁ =>
          have hreached : Reached s p url := ⟨none, href, .link hhref, hr⟩
          obtain ⟨⟨news, hnews⟩, hurl⟩ := exists_explored_gatherFrom _ _ _ _ _ hreached hc
          rw [heq] at h
          refine ih hm h ?_
          exact List.append_subset.2 ⟨List.Subset.trans hv hnews.visited_subset, by simpa using hurl⟩

theorem exists_explored_gatherStyles {styles : List Text} {c c' : Collection} (hsub : styles ⊆ p.styles)
    (h : gatherStyles s styles c = .ok c') :
    (∃ news, Explored s p news (styles.map styleFate) c c') ∧
      ∀ css ∈ styles, (styleFate css).Settled s c'.visited none := by
  induction styles generalizing c with
  | nil =>
    obtain rfl := Except.ok.inj h
    exact ⟨⟨[], .refl s p c⟩, by simp⟩
  | cons css styles ih =>
    obtain ⟨hcss, hsub⟩ := List.cons_subset.1 hsub
    rw [gatherStyles, gatherSheet_eq, ← styleFate] at h
    cases hc : collect (gatherFrom s importDepth) s none none c (styleFate css) with
    | error e =>
      rw [hc] at h
      cases h
    | ok c₁ =>
      rw [hc] at h
      have hm (file : Text) (sheet : Css.Sheet) (hf : styleFate css = .read file sheet) (i : Text × Option Text)
          (hi : i ∈ importsOf sheet) : Met s p none i.1 := .style hcss hf hi
      obtain ⟨⟨news, hnews⟩, hsettled⟩ := exists_explored_collect (exists_explored_gatherFrom _) hm hc
      obtain ⟨⟨news', hnews'⟩, hall⟩ := ih hsub h
      exact ⟨⟨_, hnews.trans hnews'⟩, List.forall_mem_cons.2 ⟨hsettled.mono hnews'.visited_subset, hall⟩⟩

theorem faulty_or_deep_of_gatherFrom {c : Collection} {url : Text} {media : Option Text} {e : ScanError}
    (hr : Reached s p url) (h : gatherFrom s importDepth c url media = .error e) :
    Faulty s p e ∨ e = .tooDeep ∧ Deep s p := by
  refine (faulty_or_descent_of_gatherFrom hr h).imp_right ?_
  rintro ⟨he, urls, hd⟩
  exact ⟨he, hd.deep⟩

theorem faulty_or_deep_of_gatherStyles {styles : List Text} {c : Collection} {e : ScanError} (hsub : styles ⊆ p.styles)
    (h : gatherStyles s styles c = .error e) : Faulty s p e ∨ e = .tooDeep ∧ Deep s p := by
  induction styles generalizing c with
  | nil => cases h
  | cons css styles ih =>
    obtain ⟨hcss, hsub⟩ := List.cons_subset.1 hsub
    rw [gatherStyles, gatherSheet_eq, ← styleFate] at h
    cases hc : collect (gatherFrom s importDepth) s none none c (styleFate css) with
    | ok c₁ =>
      rw [hc] at h
      exact ih hsub h
    | error e' =>
      rw [hc] at h
      obtain rfl := Except.error.inj h
      have hm (file : Text) (sheet : Css.Sheet) (hf : styleFate css = .read file sheet) (i : Text × Option Text)
          (hi : i ∈ importsOf sheet) : Met s p none i.1 := .style hcss hf hi
      rcases exists_of_collect_eq_error (visited_subset_of_gatherFrom _) hm (.style hcss) hc with
        hfault | ⟨file, sheet, hf, i, hi, url, c₁, hr, -, he⟩
      · exact .inl hfault
      · exact faulty_or_deep_of_gatherFrom ⟨none, i.1, hm file sheet hf i hi, hr⟩ he

/-- A page is collected as its references are followed, and then its styles. -/
theorem gather_eq_of_linkedUrls {urls : List Text} (hu : linkedUrls s p = .ok urls) :
    gather s p = (followAll (gatherFrom s importDepth) s none none (pageRefs p) .empty).bind
      (gatherStyles s p.styles) := by
  have hlinks := gatherLinks_eq_followAll (fun href hh => hh) hu (List.nil_subset Collection.empty.visited)
  rw [gather, hu]
  dsimp only
  rw [hlinks, ← pageRefs]
  cases followAll (gatherFrom s importDepth) s none none (pageRefs p) .empty <;> rfl

/-- A scan that does not get through meets what ends it, or imports that lead too deep. -/
theorem faulty_or_deep_of_gather {e : ScanError} (h : gather s p = .error e) :
    Faulty s p e ∨ e = .tooDeep ∧ Deep s p := by
  cases hu : linkedUrls s p with
  | error u =>
    rw [gather, hu] at h
    obtain rfl := Except.error.inj h
    obtain ⟨href, hh, hr⟩ := exists_of_linkedUrls_go_eq_error hu
    exact .inl (.reference (.link hh) hr)
  | ok urls =>
    rw [gather_eq_of_linkedUrls hu] at h
    cases hc : followAll (gatherFrom s importDepth) s none none (pageRefs p) .empty with
    | error e' =>
      rw [hc] at h
      obtain rfl := Except.error.inj h
      rcases exists_of_followAll_eq_error (visited_subset_of_gatherFrom _) (fun i => met_of_mem_pageRefs) hc with
        hfault | ⟨i, hi, url, c₁, hr, -, he⟩
      · exact .inl hfault
      · exact faulty_or_deep_of_gatherFrom ⟨none, i.1, met_of_mem_pageRefs hi, hr⟩ he
    | ok c =>
      rw [hc] at h
      exact faulty_or_deep_of_gatherStyles (List.Subset.refl _) h

theorem exists_of_gather_eq_ok {c : Collection} (h : gather s p = .ok c) :
    ∃ c₁, followAll (gatherFrom s importDepth) s none none (pageRefs p) .empty = .ok c₁ ∧
      gatherStyles s p.styles c₁ = .ok c := by
  cases hu : linkedUrls s p with
  | error u =>
    rw [gather, hu] at h
    cases h
  | ok urls =>
    rw [gather_eq_of_linkedUrls hu] at h
    cases hc : followAll (gatherFrom s importDepth) s none none (pageRefs p) .empty with
    | error e =>
      rw [hc] at h
      cases h
    | ok c₁ =>
      rw [hc] at h
      exact ⟨c₁, rfl, h⟩

section Gathered

variable {c : Collection} (h : gather s p = .ok c)

include h

theorem exists_explored_gather :
    (∃ news, Explored s p news (p.styles.map styleFate) .empty c) ∧ s.Covers c.visited none p.stylesheetLinks ∧
      ∀ css ∈ p.styles, (styleFate css).Settled s c.visited none := by
  obtain ⟨c₁, hc, hstyles⟩ := exists_of_gather_eq_ok h
  obtain ⟨⟨news, hnews⟩, hcovers⟩ :=
    exists_explored_followAll (exists_explored_gatherFrom _) (fun i => met_of_mem_pageRefs) hc
  obtain ⟨⟨news', hnews'⟩, hsettled⟩ := exists_explored_gatherStyles (List.Subset.refl _) hstyles
  refine ⟨⟨_, hnews.trans hnews'⟩, ?_, hsettled⟩
  have hrefs : (pageRefs p).map Prod.fst = p.stylesheetLinks := by simp [pageRefs, Function.comp_def]
  rw [← hrefs]
  exact hcovers.mono hnews'.visited_subset

/-- What a scan meets was visited by the time it gets through. -/
theorem Met.covered {base : Option Text} {ref : Text} (hm : Met s p base ref) :
    ∃ url, resolve s.pageUrl ref base = .ok url ∧ url ∈ c.visited := by
  obtain ⟨⟨news, hnews⟩, hlinks, hstyles⟩ := exists_explored_gather h
  have hall : news = c.visited := by simpa [Collection.empty] using hnews.visited.symm
  induction hm with
  | link hh => exact hlinks _ hh
  | style hcss hf hi => exact (hstyles _ hcss).covers _ _ hf _ (List.mem_map_of_mem hi)
  | sheet hm hr hf hi ih =>
    obtain ⟨url, hr', hv⟩ := ih
    obtain rfl := Except.ok.inj (hr.symm.trans hr')
    exact (hnews.settled _ (hall ▸ hv)).covers _ _ hf _ (List.mem_map_of_mem hi)

theorem mem_visited_iff {url : Text} : url ∈ c.visited ↔ Reached s p url := by
  obtain ⟨⟨news, hnews⟩, -, -⟩ := exists_explored_gather h
  have hall : news = c.visited := by simpa [Collection.empty] using hnews.visited.symm
  constructor
  · intro hv
    exact hnews.reached url (hall ▸ hv)
  · rintro ⟨base, ref, hm, hr⟩
    obtain ⟨url', hr', hv⟩ := hm.covered h
    rwa [Except.ok.inj (hr.symm.trans hr')]

theorem not_faulty_of_gather (e : ScanError) : ¬ Faulty s p e := by
  obtain ⟨⟨news, hnews⟩, -, hstyles⟩ := exists_explored_gather h
  have hall : news = c.visited := by simpa [Collection.empty] using hnews.visited.symm
  rintro (⟨hm, he⟩ | ⟨hr, he⟩ | ⟨hcss, he⟩)
  · obtain ⟨url, hr, -⟩ := hm.covered h
    cases hr.symm.trans he
  · exact (hnews.settled _ (hall ▸ (mem_visited_iff h).2 hr)).survived e he
  · exact (hstyles _ hcss).survived e he

/-- Each locator was entered once, and each fate left what it has to leave, once. -/
theorem noted_of_gather : c.visited.Nodup ∧
    c.warnings.Perm ((c.visited.map s.fate ++ p.styles.map styleFate).filterMap Fate.warning?) ∧
    ∀ file selector, c.Has file selector ↔
      ∃ f ∈ c.visited.map s.fate ++ p.styles.map styleFate, f.Declares file selector := by
  obtain ⟨⟨news, hnews⟩, -, -⟩ := exists_explored_gather h
  obtain rfl : news = c.visited := by simpa [Collection.empty] using hnews.visited.symm
  refine ⟨hnews.nodup, by simpa [Collection.empty] using hnews.warnings, fun file selector => ?_⟩
  have hnone : ¬ Collection.empty.Has file selector := by simp [Collection.Has, Collection.empty]
  rw [hnews.has, or_iff_right hnone]

end Gathered

end StylePrune.Sampling
