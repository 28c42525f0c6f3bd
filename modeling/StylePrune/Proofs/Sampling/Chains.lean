import Mathlib
import StylePrune.Proofs.Sampling.Exploring

/-!
Under which media the selectors of a sheet are found. Imports lead to a sheet along chains, each with its own media; a scan
enters the sheet once, along one of them, and takes down its selectors under the media of that one.
-/

set_option autoImplicit false

namespace StylePrune.Sampling

variable {s : Sources} {p : Html.Page}

/-- Locators, no two the same and the last one first, each imported by the one before and the first one named by the page,
and the media of these imports. -/
inductive Chain (s : Sources) (p : Html.Page) : List Text → Option Text → Prop
  | link {href url : Text} (h : href ∈ p.stylesheetLinks) (hr : resolve s.pageUrl href none = .ok url) :
      Chain s p [url] none
  | style {css file url : Text} {sheet : Css.Sheet} {i : Text × Option Text} (hcss : css ∈ p.styles)
      (hf : styleFate css = .read file sheet) (hi : i ∈ importsOf sheet)
      (hr : resolve s.pageUrl i.1 none = .ok url) : Chain s p [url] (bothMedia none i.2)
  | sheet {url url' file : Text} {urls : List Text} {media : Option Text} {sheet : Css.Sheet} {i : Text × Option Text}
      (h : Chain s p (url :: urls) media) (hf : s.fate url = .read file sheet) (hi : i ∈ importsOf sheet)
      (hr : resolve s.pageUrl i.1 (some url) = .ok url') (hn : url' ∉ url :: urls) :
      Chain s p (url' :: url :: urls) (bothMedia media i.2)

theorem Chain.reached {url : Text} {urls : List Text} {media : Option Text} (h : Chain s p (url :: urls) media) :
    Reached s p url := by
  generalize hl : url :: urls = l at h
  induction h generalizing url urls with
  | link hh hr =>
    obtain ⟨rfl, -⟩ := List.cons.inj hl
    exact ⟨none, _, .link hh, hr⟩
  | style hcss hf hi hr =>
    obtain ⟨rfl, -⟩ := List.cons.inj hl
    exact ⟨none, _, .style hcss hf hi, hr⟩
  | sheet h hf hi hr hn ih =>
    obtain ⟨rfl, -⟩ := List.cons.inj hl
    exact ⟨some _, _, (ih rfl).met hf hi, hr⟩

theorem Chain.nodup {urls : List Text} {media : Option Text} (h : Chain s p urls media) : urls.Nodup := by
  induction h with
  | link _ _ | style _ _ _ _ => exact List.nodup_singleton _
  | sheet _ _ _ _ hn ih => exact List.nodup_cons.2 ⟨hn, ih⟩

/-- The sheet declares a selector so, if imports led to it under the media. -/
def Fate.Shows (f : Fate) (media : Option Text) (x : Sighting) : Prop :=
  ∃ file sheet, f = .read file sheet ∧ ∃ u ∈ sheet.uses, x = ⟨file, u.1, bothMedia media u.2⟩

/-- A locator and the media under which it was entered. -/
abbrev Way := Text × Option Text

/-- From one collection to the next the scan went these ways, each along a chain, and found what the sheets there show,
and what `own` ones do. -/
structure Traced (s : Sources) (p : Html.Page) (ways : List Way) (own : List (Fate × Option Text))
    (c c' : Collection) : Prop where
  visited : c'.visited = ways.map Prod.fst ++ c.visited
  chained : ∀ w ∈ ways, ∃ urls, Chain s p (w.1 :: urls) w.2
  found : ∀ x, x ∈ c'.found ↔ x ∈ c.found ∨ ∃ f ∈ ways.map (fun w => (s.fate w.1, w.2)) ++ own, f.1.Shows f.2 x

namespace Traced

variable {ways ways' : List Way} {own own' : List (Fate × Option Text)} {c c' c'' : Collection}

theorem refl (s : Sources) (p : Html.Page) (c : Collection) : Traced s p [] [] c c where
  visited := rfl
  chained := by simp
  found := by simp

theorem visited_subset (h : Traced s p ways own c c') : c.visited ⊆ c'.visited := by
  rw [h.visited]
  exact List.subset_append_right _ _

theorem trans (h : Traced s p ways own c c') (h' : Traced s p ways' own' c' c'') :
    Traced s p (ways' ++ ways) (own ++ own') c c'' where
  visited := by rw [h'.visited, h.visited, List.map_append, List.append_assoc]
  chained w hw := (List.mem_append.1 hw).elim (h'.chained w) (h.chained w)
  found x := by
    rw [h'.found, h.found, or_assoc]
    refine or_congr_right ?_
    simp only [List.map_append, List.mem_append, or_and_right, exists_or]
    rw [or_or_or_comm]
    exact or_congr_left or_comm

/-- The locator itself was entered first. -/
theorem enter {url : Text} {urls : List Text} {media : Option Text} {fetched : Bool} (hc : Chain s p (url :: urls) media)
    (h : Traced s p ways [(s.fate url, media)] (c.enter url fetched) c') : Traced s p (ways ++ [(url, media)]) [] c c' where
  visited := by simp [h.visited]
  chained w hw := by
    rcases List.mem_append.1 hw with hw | hw
    · exact h.chained w hw
    · obtain rfl := List.mem_singleton.1 hw
      exact ⟨urls, hc⟩
  found x := by
    have hfound : (c.enter url fetched).found = c.found := rfl
    rw [h.found, hfound, List.map_append, List.append_nil]
    rfl

/-- The sheet's own selectors were found last. -/
theorem declare {file : Text} {media : Option Text} {sheet : Css.Sheet} (h : Traced s p ways [] c c') :
    Traced s p ways [(.read file sheet, media)] c (c'.declare file media sheet) where
  visited := h.visited
  chained := h.chained
  found x := by
    have hshows : (Fate.read file sheet).Shows media x ↔ x ∈ sheet.uses.map fun u => ⟨file, u.1, bothMedia media u.2⟩ := by
      simp [Fate.Shows, List.mem_map, eq_comm]
    rw [Collection.declare, List.mem_append, h.found, ← hshows]
    simp only [List.append_nil, List.mem_append, List.mem_singleton, or_and_right, exists_or, exists_eq_left, or_assoc]

end Traced

theorem traced_warn (s : Sources) (p : Html.Page) (media : Option Text) (c : Collection) (w : Text) :
    Traced s p [] [(.failed w, media)] c (c.warn w) where
  visited := rfl
  chained := by simp
  found x := by simp [Fate.Shows, Collection.warn]

/-- A chain leads to the locator from where the scan has been, unless it has been there too. -/
def LeadsOn (s : Sources) (p : Html.Page) (visited : List Text) (url : Text) (media : Option Text) : Prop :=
  url ∉ visited → ∃ urls, Chain s p (url :: urls) media ∧ urls ⊆ visited

theorem LeadsOn.mono {visited visited' : List Text} {url : Text} {media : Option Text} (h : LeadsOn s p visited url media)
    (hv : visited ⊆ visited') : LeadsOn s p visited' url media := fun hn =>
  (h fun hu => hn (hv hu)).imp fun _ hc => ⟨hc.1, List.Subset.trans hc.2 hv⟩

section Following

variable {follow : Follow}
  (hf : ∀ c url media c', LeadsOn s p c.visited url media → follow c url media = .ok c' → ∃ ways, Traced s p ways [] c c')

include hf

theorem exists_traced_followAll {base media : Option Text} {is : List (Text × Option Text)} {c c' : Collection}
    (hl : ∀ i ∈ is, ∀ url, resolve s.pageUrl i.1 base = .ok url → LeadsOn s p c.visited url (bothMedia media i.2))
    (h : followAll follow s base media is c = .ok c') : ∃ ways, Traced s p ways [] c c' := by
  induction is generalizing c with
  | nil =>
    obtain rfl := Except.ok.inj h
    exact ⟨[], .refl s p c⟩
  | cons i is ih =>
    obtain ⟨hi, hl⟩ := List.forall_mem_cons.1 hl
    rw [followAll] at h
    cases hr : resolve s.pageUrl i.1 base with
    | error e =>
      rw [hr] at h
      cases h
    | ok url =>
      rw [hr] at h
      dsimp only at h
      cases hc : follow c url (bothMedia media i.2) with
      | error e =>
        rw [hc] at h
        cases h
      | ok c₁ =>
        rw [hc] at h
        obtain ⟨ways, hways⟩ := hf c url _ c₁ (hi url hr) hc
        obtain ⟨ways', hways'⟩ := ih (fun j hj url hr => (hl j hj url hr).mono hways.visited_subset) h
        exact ⟨_, hways.trans hways'⟩

theorem exists_traced_collect {base media : Option Text} {c c' : Collection} {f : Fate}
    (hl : ∀ file sheet, f = .read file sheet → ∀ i ∈ importsOf sheet, ∀ url, resolve s.pageUrl i.1 base = .ok url →
      LeadsOn s p c.visited url (bothMedia media i.2))
    (h : collect follow s base media c f = .ok c') : ∃ ways, Traced s p ways [(f, media)] c c' := by
  cases f with
  | fatal e => cases h
  | failed w =>
    obtain rfl := Except.ok.inj h
    exact ⟨[], traced_warn s p media c w⟩
  | read file sheet =>
    rw [collect] at h
    cases hc : followAll follow s base media (importsOf sheet) c with
    | error e =>
      rw [hc] at h
      cases h
    | ok c₁ =>
      rw [hc] at h
      obtain rfl := Except.ok.inj h
      obtain ⟨ways, hways⟩ := exists_traced_followAll hf (hl file sheet rfl) hc
      exact ⟨ways, hways.declare⟩

end Following

theorem exists_traced_gatherFrom (depth : Nat) (c : Collection) (url : Text) (media : Option Text) (c' : Collection)
    (hl : LeadsOn s p c.visited url media) (h : gatherFrom s depth c url media = .ok c') :
    ∃ ways, Traced s p ways [] c c' := by
  by_cases hv : url ∈ c.visited
  · rw [gatherFrom_of_mem hv] at h
    obtain rfl := Except.ok.inj h
    exact ⟨[], .refl s p c⟩
  induction depth generalizing c url media c' with
  | zero =>
    rw [gatherFrom_zero hv] at h
    cases h
  | succ depth ih =>
    obtain ⟨urls, hc, hsub⟩ := hl hv
    obtain ⟨fetched, heq⟩ := gatherFrom_succ s depth media hv
    rw [heq] at h
    have hfollow (c₁ : Collection) (url₁ : Text) (media₁ : Option Text) (c₂ : Collection)
        (hl₁ : LeadsOn s p c₁.visited url₁ media₁) (h₁ : gatherFrom s depth c₁ url₁ media₁ = .ok c₂) :
        ∃ ways, Traced s p ways [] c₁ c₂ := by
      by_cases hv₁ : url₁ ∈ c₁.visited
      · rw [gatherFrom_of_mem hv₁] at h₁
        obtain rfl := Except.ok.inj h₁
        exact ⟨[], .refl s p c₁⟩
      · exact ih c₁ url₁ media₁ c₂ hl₁ h₁ hv₁
    have hsub' : url :: urls ⊆ (c.enter url fetched).visited := List.cons_subset_cons url hsub
    -- the chain to the sheet goes on to each import that was not visited, since such a one is not on it
    obtain ⟨ways, hways⟩ := exists_traced_collect hfollow (fun file sheet hf i hi url' hr hn =>
      ⟨url :: urls, .sheet hc hf hi hr fun hmem => hn (hsub' hmem), hsub'⟩) h
    exact ⟨_, hways.enter hc⟩

theorem exists_traced_gatherStyles {styles : List Text} {c c' : Collection} (hsub : styles ⊆ p.styles)
    (h : gatherStyles s styles c = .ok c') :
    ∃ ways, Traced s p ways (styles.map fun css => (styleFate css, none)) c c' := by
  induction styles generalizing c with
  | nil =>
    obtain rfl := Except.ok.inj h
    exact ⟨[], .refl s p c⟩
  | cons css styles ih =>
    obtain ⟨hcss, hsub⟩ := List.cons_subset.1 hsub
    rw [gatherStyles, gatherSheet_eq, ← styleFate] at h
    cases hc : collect (gatherFrom s importDepth) s none none c (styleFate css) with
    | error e =>
      rw [hc] at h
      cases h
    | ok c₁ =>
      rw [hc] at h
      obtain ⟨ways, hways⟩ := exists_traced_collect (p := p) (exists_traced_gatherFrom _)
        (fun file sheet hf i hi url hr _ => ⟨[], .style hcss hf hi hr, List.nil_subset _⟩) hc
      obtain ⟨ways', hways'⟩ := ih hsub h
      exact ⟨_, hways.trans hways'⟩

theorem exists_traced_gather {c : Collection} (h : gather s p = .ok c) :
    ∃ ways, Traced s p ways (p.styles.map fun css => (styleFate css, none)) .empty c := by
  obtain ⟨c₁, hc, hstyles⟩ := exists_of_gather_eq_ok h
  have hlinks (i : Text × Option Text) (hi : i ∈ pageRefs p) (url : Text) (hr : resolve s.pageUrl i.1 none = .ok url) :
      LeadsOn s p [] url (bothMedia none i.2) := by
    obtain ⟨href, hh, rfl⟩ := List.mem_map.1 hi
    exact fun _ => ⟨[], .link hh hr, List.nil_subset _⟩
  obtain ⟨ways, hways⟩ := exists_traced_followAll (exists_traced_gatherFrom _) hlinks hc
  obtain ⟨ways', hways'⟩ := exists_traced_gatherStyles (List.Subset.refl _) hstyles
  exact ⟨_, hways.trans hways'⟩

/-- Unless a reference, a sheet or the depth of imports ends it, a scan goes one way to each sheet that is reached, along a
chain, and finds just what sheets and styles show under the media of their ways. So all that a sheet declares is found
under the media of a chain to it, if no other chain has other media. -/
theorem exists_ways_of_gather (hf : ∀ e, ¬ Faulty s p e) (hd : ¬ Deep s p) : ∃ c, gather s p = .ok c ∧
    ∃ ways : List Way, (ways.map Prod.fst).Nodup ∧ (∀ url, url ∈ ways.map Prod.fst ↔ Reached s p url) ∧
      (∀ w ∈ ways, ∃ urls, Chain s p (w.1 :: urls) w.2) ∧
      (∀ x, x ∈ c.found ↔ (∃ w ∈ ways, (s.fate w.1).Shows w.2 x) ∨ ∃ css ∈ p.styles, (styleFate css).Shows none x) ∧
      ∀ url urls media file sheet, Chain s p (url :: urls) media → s.fate url = .read file sheet →
        (∀ urls' media', Chain s p (url :: urls') media' → media' = media) →
          ∀ u ∈ sheet.uses, ⟨file, u.1, bothMedia media u.2⟩ ∈ c.found := by
  obtain ⟨c, hc⟩ : ∃ c, gather s p = .ok c := by
    cases hg : gather s p with
    | ok c => exact ⟨c, rfl⟩
    | error e => exact ((faulty_or_deep_of_gather hg).elim (hf e) fun h => hd h.2).elim
  obtain ⟨ways, hways⟩ := exists_traced_gather hc
  have hvisited : c.visited = ways.map Prod.fst := by simpa [Collection.empty] using hways.visited
  have hreached (url : Text) : url ∈ ways.map Prod.fst ↔ Reached s p url := hvisited ▸ mem_visited_iff hc
  have hfound (x : Sighting) : x ∈ c.found ↔
      (∃ w ∈ ways, (s.fate w.1).Shows w.2 x) ∨ ∃ css ∈ p.styles, (styleFate css).Shows none x := by
    rw [hways.found]
    simp [Collection.empty, or_and_right, exists_or]
  refine ⟨c, hc, ways, hvisited ▸ (noted_of_gather hc).1, hreached, hways.chained, hfound, ?_⟩
  intro url urls media file sheet hchain hread hone u hu
  obtain ⟨⟨_, media'⟩, hw, rfl⟩ := List.mem_map.1 ((hreached url).2 hchain.reached)
  obtain ⟨urls', hchain'⟩ := hways.chained _ hw
  obtain rfl := hone urls' media' hchain'
  exact (hfound _).2 (.inl ⟨_, hw, file, sheet, hread, u, hu, rfl⟩)

def importedUrl : Text := "http://h/a"

def importingUrl : Text := "http://h/b"

/-- A network with a sheet, and with another one that imports it for print. -/
def printing : Sources where
  site := none
  pageUrl := none
  disk := ⟨Table.empty⟩
  network url :=
    if url = importedUrl then some ".x\x7b\x7d"
    else if url = importingUrl then some "@import \"a\" print;" else none

def linkingAll (hrefs : List Text) : Html.Page :=
  ⟨hrefs.map fun href => ⟨"link", [("rel", "stylesheet"), ("href", href)], []⟩⟩

def imported : Css.Sheet := ⟨[.block ⟨[], some (".x\x7b\x7d" : Text), ".x", [], [(".x" : Text)]⟩], []⟩

def importing : Css.Sheet :=
  ⟨[.statement ⟨[], "import", "@import \"a\" print;", some ("a" : Text), some ("print" : Text)⟩], []⟩

theorem fate_imported : printing.fate importedUrl = .read "a" imported := by
  have hload : printing.load importedUrl = .ok ⟨.css ".x\x7b\x7d", true⟩ := rfl
  have hkey : SourceKey.ofReference importedUrl = .ok "a" := rfl
  have hparse : Css.Sheet.parse ".x\x7b\x7d" = .ok imported := by cbv
  simp only [Sources.fate, hload, Fate.ofLoad, hkey, Fate.ofText, hparse]

theorem fate_importing : printing.fate importingUrl = .read "b" importing := by
  have hload : printing.load importingUrl = .ok ⟨.css "@import \"a\" print;", true⟩ := rfl
  have hkey : SourceKey.ofReference importingUrl = .ok "b" := rfl
  have hparse : Css.Sheet.parse "@import \"a\" print;" = .ok importing := by cbv
  simp only [Sources.fate, hload, Fate.ofLoad, hkey, Fate.ofText, hparse]

theorem gatherFrom_imported (depth : Nat) (media : Option Text) {c : Collection} (hv : importedUrl ∉ c.visited) :
    ∃ fetched, gatherFrom printing (depth + 1) c importedUrl media =
      .ok ((c.enter importedUrl fetched).declare "a" media imported) := by
  obtain ⟨fetched, h⟩ := gatherFrom_succ printing depth media hv
  rw [h, fate_imported]
  exact ⟨fetched, rfl⟩

theorem gatherFrom_importing (depth : Nat) {c : Collection} (hv : importingUrl ∉ c.visited) :
    ∃ fetched, gatherFrom printing (depth + 1) c importingUrl none =
      (gatherFrom printing depth (c.enter importingUrl fetched) importedUrl (some "print")).map
        (·.declare "b" none importing) := by
  obtain ⟨fetched, h⟩ := gatherFrom_succ printing depth none hv
  have himports : importsOf importing = [(("a" : Text), some ("print" : Text))] := rfl
  have hr : resolve printing.pageUrl "a" (some importingUrl) = .ok importedUrl := rfl
  refine ⟨fetched, ?_⟩
  rw [h, fate_importing, collect, himports, followAll, hr]
  simp only [followAll, bothMedia]
  cases gatherFrom printing depth (c.enter importingUrl fetched) importedUrl (some "print") <;> rfl

/-- A page with a link to the sheet that imports the other one. -/
def importingPage : Html.Page := linkingAll [importingUrl]

/-- A page with links to both. -/
def crossingPage : Html.Page := linkingAll [importedUrl, importingUrl]

theorem gather_importingPage : ∃ c, gather printing importingPage = .ok c ∧
    c.visited = [importedUrl, importingUrl] ∧ c.found = [⟨"a", ".x", some ("print" : Text)⟩] := by
  have hl : linkedUrls printing importingPage = .ok [importingUrl] := rfl
  have hnone : importingUrl ∉ Collection.empty.visited := List.not_mem_nil
  obtain ⟨f, hb⟩ := gatherFrom_importing 479 hnone
  have hnew : importedUrl ∉ (Collection.empty.enter importingUrl f).visited := by
    rw [Collection.visited_enter]
    decide
  obtain ⟨f', ha⟩ := gatherFrom_imported 478 (some "print") hnew
  rw [ha] at hb
  rw [gather, hl]
  simp only [gatherLinks, importDepth, hb, Except.map]
  exact ⟨_, rfl, rfl, rfl⟩

theorem gather_crossingPage : ∃ c, gather printing crossingPage = .ok c ∧ c.found = [⟨"a", ".x", none⟩] := by
  have hl : linkedUrls printing crossingPage = .ok [importedUrl, importingUrl] := rfl
  have hnone : importedUrl ∉ Collection.empty.visited := List.not_mem_nil
  obtain ⟨f, ha⟩ := gatherFrom_imported 479 none hnone
  have hnew : importingUrl ∉ ((Collection.empty.enter importedUrl f).declare "a" none imported).visited := by
    rw [Collection.visited_declare, Collection.visited_enter]
    decide
  obtain ⟨f', hb⟩ := gatherFrom_importing 479 hnew
  have hold : importedUrl ∈ (((Collection.empty.enter importedUrl f).declare "a" none imported).enter importingUrl f').visited :=
    List.mem_cons_of_mem _ List.mem_cons_self
  rw [gatherFrom_of_mem hold] at hb
  rw [gather, hl]
  simp only [gatherLinks, importDepth, ha, hb, Except.map]
  exact ⟨_, rfl, rfl⟩

/-- Chains from the first page. -/
theorem chain_importingPage {urls : List Text} {media : Option Text} (h : Chain printing importingPage urls media) :
    urls = [importingUrl] ∧ media = none ∨ urls = [importedUrl, importingUrl] ∧ media = some ("print" : Text) := by
  induction h with
  | link h hr =>
    obtain rfl : _ = importingUrl := List.mem_singleton.1 h
    exact .inl ⟨congrArg (fun url => [url]) (Except.ok.inj hr).symm, rfl⟩
  | style hcss => cases hcss
  | sheet h hf hi hr hn ih =>
    rcases ih with ⟨hurls, rfl⟩ | ⟨hurls, rfl⟩
    · obtain ⟨rfl, rfl⟩ := List.cons.inj hurls
      obtain ⟨rfl, rfl⟩ := Fate.read.inj (fate_importing.symm.trans hf)
      obtain rfl := List.mem_singleton.1 hi
      exact .inr ⟨congrArg (fun url => [url, importingUrl]) (Except.ok.inj hr).symm, rfl⟩
    · obtain ⟨rfl, rfl⟩ := List.cons.inj hurls
      obtain ⟨rfl, rfl⟩ := Fate.read.inj (fate_imported.symm.trans hf)
      cases hi

theorem not_deep_importingPage : ¬ Deep printing importingPage := by
  rintro ⟨urls, hlength, hnodup, -, hreached⟩
  obtain ⟨c, hc, hvisited, -⟩ := gather_importingPage
  have hsub : urls ⊆ [importedUrl, importingUrl] := fun url hu => hvisited ▸ (mem_visited_iff hc).2 (hreached url hu)
  have hle := (hnodup.subperm hsub).length_le
  rw [hlength] at hle
  exact absurd hle (by decide)

/-- The imported sheet's selector is found for print. A link to the sheet as well leaves that chain in place, and the
selector is found without media only. -/
theorem found_importingPage :
    (∃ c, gather printing importingPage = .ok c ∧ ⟨"a", ".x", some ("print" : Text)⟩ ∈ c.found) ∧
    Chain printing crossingPage [importedUrl, importingUrl] (some ("print" : Text)) ∧
    ∃ c, gather printing crossingPage = .ok c ∧ c.found = [⟨"a", ".x", none⟩] := by
  have hchain {page : Html.Page} (hp : importingUrl ∈ page.stylesheetLinks) :
      Chain printing page [importedUrl, importingUrl] (some ("print" : Text)) :=
    .sheet (i := ("a", some "print")) (.link hp rfl) fate_importing (List.mem_singleton_self _) rfl (by decide)
  refine ⟨?_, hchain (by decide), gather_crossingPage⟩
  obtain ⟨c₀, hc₀, -⟩ := gather_importingPage
  obtain ⟨c, hc, -, -, -, -, -, hfound⟩ := exists_ways_of_gather (not_faulty_of_gather hc₀) not_deep_importingPage
  have hone (urls : List Text) (media : Option Text) (h : Chain printing importingPage (importedUrl :: urls) media) :
      media = some ("print" : Text) := by
    rcases chain_importingPage h with ⟨hurls, -⟩ | ⟨-, hmedia⟩
    · exact absurd (List.cons.inj hurls).1 (by decide)
    · exact hmedia
  exact ⟨c, hc, hfound _ _ _ _ _ (hchain (by decide)) fate_imported hone (".x", none) (by decide)⟩

end StylePrune.Sampling
