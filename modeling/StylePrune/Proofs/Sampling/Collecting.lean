import StylePrune.Proofs.Css.Prelude
import StylePrune.Sampling.Collection

/-!
Where the selectors of a page come from. Whatever sheets refer to, in whatever order and to whatever depth, what is
found stands in a stylesheet that could be read, in normal form.
-/

set_option autoImplicit false

namespace StylePrune.Sampling

/-- The selector stands in a stylesheet that can be read. -/
def Sighting.Declared (x : Sighting) : Prop :=
  ∃ css sheet, Css.Sheet.parse css = .ok sheet ∧ x.selector ∈ sheet.uses.map Prod.fst

theorem Sighting.Declared.normalize_selector {x : Sighting} (h : x.Declared) :
    Selector.normalize x.selector = x.selector ∧ x.selector ≠ [] := by
  obtain ⟨css, sheet, hp, hx⟩ := h
  rw [Css.Sheet.map_fst_uses] at hx
  obtain ⟨b, hb, hx⟩ := List.mem_flatMap.1 hx
  exact Css.Sheet.normalize_selector hp hb hx

/-- What was found beyond what was there stands in stylesheets. -/
def Collection.Grows (c c' : Collection) : Prop := ∀ x ∈ c'.found, x ∈ c.found ∨ x.Declared

namespace Collection.Grows

variable {c c' c'' : Collection}

theorem of_eq (h : c'.found = c.found) : c.Grows c' := fun _ hx => .inl (h ▸ hx)

theorem trans (h : c.Grows c') (h' : c'.Grows c'') : c.Grows c'' := fun x hx =>
  (h' x hx).elim (h x) .inr

end Collection.Grows

section Gathering

variable {s : Sources} {follow : Collection → Text → Option Text → Except ScanError Collection}
  (hf : ∀ c url media c', follow c url media = .ok c' → c.Grows c')

include hf

theorem grows_followAll {base media : Option Text} {is : List (Text × Option Text)} {c c' : Collection}
    (h : followAll follow s base media is c = .ok c') : c.Grows c' := by
  induction is generalizing c with
  | nil =>
    obtain rfl := Except.ok.inj h
    exact .of_eq rfl
  | cons i is ih =>
    rw [followAll] at h
    split at h
    · cases h
    · split at h
      · cases h
      · rename_i hc
        exact (hf _ _ _ _ hc).trans (ih h)

theorem grows_gatherSheet {css file : Text} {base media : Option Text} {c c' : Collection}
    (h : gatherSheet follow s css file base media c = .ok c') : c.Grows c' := by
  rw [gatherSheet] at h
  split at h
  · cases h
  · obtain rfl := Except.ok.inj h
    exact .of_eq rfl
  · rename_i sheet hp
    split at h
    · cases h
    · rename_i c₁ hc
      obtain rfl := Except.ok.inj h
      refine (grows_followAll hf hc).trans fun x hx => (List.mem_append.1 hx).imp_right ?_
      rintro hx
      obtain ⟨u, hu, rfl⟩ := List.mem_map.1 hx
      exact ⟨css, sheet, hp, List.mem_map_of_mem hu⟩

end Gathering

section Gathering

variable {s : Sources}

theorem grows_gatherFrom (depth : Nat) (c : Collection) (url : Text) (media : Option Text) (c' : Collection)
    (h : gatherFrom s depth c url media = .ok c') : c.Grows c' := by
  induction depth generalizing c url media c' with
  | zero =>
    rw [gatherFrom] at h
    split at h
    · obtain rfl := Except.ok.inj h
      exact .of_eq rfl
    · cases h
  | succ depth ih =>
    rw [gatherFrom] at h
    split at h
    · obtain rfl := Except.ok.inj h
      exact .of_eq rfl
    · split at h
      · cases h
      · dsimp only at h
        split at h
        · obtain rfl := Except.ok.inj h
          exact .of_eq rfl
        · split at h
          · cases h
          · have hsheet := grows_gatherSheet ih h
            exact hsheet

theorem grows_gatherLinks {urls : List Text} {c c' : Collection} (h : gatherLinks s urls c = .ok c') : c.Grows c' := by
  induction urls generalizing c with
  | nil =>
    obtain rfl := Except.ok.inj h
    exact .of_eq rfl
  | cons url urls ih =>
    rw [gatherLinks] at h
    split at h
    · cases h
    · rename_i hc
      exact (grows_gatherFrom _ _ _ _ _ hc).trans (ih h)

theorem grows_gatherStyles {styles : List Text} {c c' : Collection} (h : gatherStyles s styles c = .ok c') :
    c.Grows c' := by
  induction styles generalizing c with
  | nil =>
    obtain rfl := Except.ok.inj h
    exact .of_eq rfl
  | cons css styles ih =>
    rw [gatherStyles] at h
    split at h
    · cases h
    · rename_i hc
      exact (grows_gatherSheet (grows_gatherFrom _) hc).trans (ih h)

/-- Whatever a page is found to declare stands in a stylesheet. -/
theorem declared_of_gather {p : Html.Page} {c : Collection} (h : gather s p = .ok c) : ∀ x ∈ c.found, x.Declared := by
  rw [gather] at h
  split at h
  · cases h
  · split at h
    · cases h
    · rename_i hc
      intro x hx
      exact ((grows_gatherLinks hc).trans (grows_gatherStyles h) x hx).resolve_left (List.not_mem_nil)

end Gathering

/-! ## Sheets of the site -/

/-- The file's sheet is read from the document root, under a locator that has the file's key. -/
def Sources.ReadsFromSite (s : Sources) (file : Text) (sheet : Css.Sheet) : Prop :=
  ∃ url css, SourceKey.ofReference url = .ok file ∧ s.fromSite url = .ok (some css) ∧ Css.Sheet.parse css = .ok sheet

theorem Sources.ReadsFromSite.exists_read {s : Sources} {file : Text} {sheet : Css.Sheet} {site : Site}
    (h : s.ReadsFromSite file sheet) (hs : s.site = some site) :
    ∃ css size, Site.read site (fun _ => false) s.disk file = .ok (css, size) ∧ Css.Sheet.parse css = .ok sheet := by
  obtain ⟨url, css, hf, hread, hp⟩ := h
  simp only [fromSite, hs, hf] at hread
  split at hread
  · cases hread
  · cases hread
  · split at hread
    · rename_i r hr
      obtain rfl : r.1 = css := by simpa using hread
      exact ⟨r.1, r.2, hr, hp⟩
    · cases hread
    · cases hread

theorem Sources.fromSite_of_read {s : Sources} {site : Site} {url css file : Text} {size : Nat}
    (hs : s.site = some site) (ho : sharesOrigin s.pageUrl url = .ok true) (hf : SourceKey.ofReference url = .ok file)
    (hr : Site.read site (fun _ => false) s.disk file = .ok (css, size)) : s.fromSite url = .ok (some css) := by
  simp [fromSite, hs, ho, hf, hr]

/-- A sheet of the site without imports adds its own selectors. -/
theorem gatherFrom_of_fromSite {s : Sources} {depth : Nat} {c : Collection} {url css file : Text} {media : Option Text}
    {sheet : Css.Sheet} (hv : url ∉ c.visited) (hl : s.fromSite url = .ok (some css))
    (hf : SourceKey.ofReference url = .ok file) (hp : Css.Sheet.parse css = .ok sheet) (hi : importsOf sheet = []) :
    gatherFrom s (depth + 1) c url media = .ok { c with
      visited := url :: c.visited
      found := c.found ++ sheet.uses.map fun u => ⟨file, u.1, bothMedia media u.2⟩ } := by
  have hload : s.load url = .ok ⟨.css css, false⟩ := by simp [Sources.load, hl]
  rw [gatherFrom, if_neg hv, hload]
  simp [Load.css?, Load.warning?, hf, gatherSheet, hp, hi, followAll]

end StylePrune.Sampling
