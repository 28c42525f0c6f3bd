import StylePrune.Proofs.Sampling.Exploring
import StylePrune.Proofs.Sampling.Verdicts

/-!
References that lead to sheets which cannot be had. A scan without some of them finds what the scan with them finds: the
two walks go side by side, and where one follows such a reference alone it comes back with nothing but a warning.
-/

set_option autoImplicit false

namespace StylePrune.Sampling

/-- The second list has some entries of the first left out and each of the others replaced by a like one. -/
inductive Thinned {α : Type} (drops : α → Prop) (like : α → α → Prop) : List α → List α → Prop
  | nil : Thinned drops like [] []
  | keep {a b : α} {as bs : List α} (hab : like a b) (h : Thinned drops like as bs) :
      Thinned drops like (a :: as) (b :: bs)
  | drop {a : α} {as bs : List α} (ha : drops a) (h : Thinned drops like as bs) : Thinned drops like (a :: as) bs

theorem Thinned.exists_of_mem {α : Type} {drops : α → Prop} {like : α → α → Prop} {as bs : List α}
    (h : Thinned drops like as bs) {b : α} (hb : b ∈ bs) : ∃ a ∈ as, like a b := by
  induction h with
  | nil => cases hb
  | keep hab h ih =>
    rcases List.mem_cons.1 hb with rfl | hb
    · exact ⟨_, List.mem_cons_self, hab⟩
    · obtain ⟨a, ha, hl⟩ := ih hb
      exact ⟨a, List.mem_cons_of_mem _ ha, hl⟩
  | drop ha h ih =>
    obtain ⟨a, ha, hl⟩ := ih hb
    exact ⟨a, List.mem_cons_of_mem _ ha, hl⟩

theorem Thinned.refl {α : Type} (drops : α → Prop) (as : List α) : Thinned drops Eq as as := by
  induction as with
  | nil => exact .nil
  | cons a as ih => exact .keep rfl ih

theorem Thinned.map {α β : Type} {drops : α → Prop} {drops' : β → Prop} {as bs : List α} (f : α → β)
    (hf : ∀ a, drops a → drops' (f a)) (h : Thinned drops Eq as bs) : Thinned drops' Eq (as.map f) (bs.map f) := by
  induction h with
  | nil => exact .nil
  | keep hab h ih => exact .keep (congrArg f hab) ih
  | drop ha h ih => exact .drop (hf _ ha) ih

/-- The reference leads to a sheet that cannot be read, fetched or parsed. -/
def Sources.Wastes (s : Sources) (base : Option Text) (ref : Text) : Prop :=
  ∃ url w, resolve s.pageUrl ref base = .ok url ∧ s.fate url = .failed w

/-- Nothing is changed, or the sheet lacks some imports of sheets that cannot be had. -/
inductive Fate.Thins (s : Sources) (base : Option Text) : Fate → Fate → Prop
  | fatal (e : ScanError) : Fate.Thins s base (.fatal e) (.fatal e)
  | failed (w : Text) : Fate.Thins s base (.failed w) (.failed w)
  | read {file : Text} {sheet sheet' : Css.Sheet} (huses : sheet'.uses = sheet.uses)
      (himports : Thinned (fun i => s.Wastes base i.1) Eq (importsOf sheet) (importsOf sheet')) :
      Fate.Thins s base (.read file sheet) (.read file sheet')

theorem Fate.Thins.refl (s : Sources) (base : Option Text) (f : Fate) : f.Thins s base f := by
  cases f with
  | fatal e => exact .fatal e
  | failed w => exact .failed w
  | read file sheet => exact .read rfl (.refl _ _)

/-- The second page and its sheets lack some references to sheets that cannot be had. -/
structure Omits (s : Sources) (p : Html.Page) (s' : Sources) (p' : Html.Page) : Prop where
  pageUrl : s'.pageUrl = s.pageUrl
  links : Thinned (s.Wastes none) Eq p.stylesheetLinks p'.stylesheetLinks
  sheets : ∀ url, (s.fate url).Thins s (some url) (s'.fate url)
  styles : Thinned (fun css => ∃ w, styleFate css = .failed w)
    (fun css css' => (styleFate css).Thins s none (styleFate css')) p.styles p'.styles

variable {s s' : Sources} {p p' : Html.Page}

/-! ## Nothing new is met -/

theorem Fate.Thins.exists_of_read {base : Option Text} {f : Fate} {file : Text} {sheet' : Css.Sheet}
    (h : f.Thins s base (.read file sheet')) :
    ∃ sheet, f = .read file sheet ∧ importsOf sheet' ⊆ importsOf sheet := by
  cases h with
  | @read _ sheet _ huses himports =>
    refine ⟨sheet, rfl, fun i hi => ?_⟩
    obtain ⟨j, hj, rfl⟩ := himports.exists_of_mem hi
    exact hj

theorem Fate.Thins.failed_iff {base : Option Text} {f f' : Fate} {w : Text} (h : f.Thins s base f') :
    f' = .failed w ↔ f = .failed w := by
  cases h <;> simp

theorem Fate.Thins.eq_of_fatal {base : Option Text} {f : Fate} {e : ScanError} (h : f.Thins s base (.fatal e)) :
    f = .fatal e := by
  cases h
  rfl

namespace Omits

variable (h : Omits s p s' p')

include h

theorem met {base : Option Text} {ref : Text} (hm : Met s' p' base ref) : Met s p base ref := by
  induction hm with
  | link hh =>
    obtain ⟨href, hmem, rfl⟩ := h.links.exists_of_mem hh
    exact .link hmem
  | @style css' file sheet' i hcss hf hi =>
    obtain ⟨css, hmem, hthin⟩ := h.styles.exists_of_mem hcss
    rw [hf] at hthin
    obtain ⟨sheet, hread, hsub⟩ := hthin.exists_of_read
    exact .style hmem hread (hsub hi)
  | @sheet base ref url file sheet' i hm hr hf hi ih =>
    have hthin := h.sheets url
    rw [hf] at hthin
    obtain ⟨sheet, hread, hsub⟩ := hthin.exists_of_read
    rw [h.pageUrl] at hr
    exact .sheet ih hr hread (hsub hi)

theorem reached {url : Text} (hr : Reached s' p' url) : Reached s p url := by
  obtain ⟨base, ref, hm, hr⟩ := hr
  rw [h.pageUrl] at hr
  exact ⟨base, ref, h.met hm, hr⟩

theorem faulty {e : ScanError} (hf : Faulty s' p' e) : Faulty s p e := by
  rcases hf with ⟨hm, he⟩ | @⟨url, _, hr, he⟩ | ⟨hcss, he⟩
  · rw [h.pageUrl] at he
    exact .reference (h.met hm) he
  · have hthin := h.sheets url
    rw [he] at hthin
    exact .sheet (h.reached hr) hthin.eq_of_fatal
  · obtain ⟨css, hmem, hthin⟩ := h.styles.exists_of_mem hcss
    rw [he] at hthin
    exact .style hmem hthin.eq_of_fatal

end Omits

/-! ## Two walks side by side -/

/-- The same was found, and but for sheets that cannot be had the same was visited. -/
structure Agree (s : Sources) (c c' : Collection) : Prop where
  found : c'.found = c.found
  visited : ∀ url, (∀ w, s.fate url ≠ .failed w) → (url ∈ c'.visited ↔ url ∈ c.visited)

namespace Agree

variable {c c' c'' : Collection}

theorem refl (s : Sources) (c : Collection) : Agree s c c := ⟨rfl, fun _ _ => .rfl⟩

theorem symm (h : Agree s c c') : Agree s c' c := ⟨h.found.symm, fun url hu => (h.visited url hu).symm⟩

theorem trans (h : Agree s c c') (h' : Agree s c' c'') : Agree s c c'' :=
  ⟨h'.found.trans h.found, fun url hu => (h'.visited url hu).trans (h.visited url hu)⟩

theorem enter (h : Agree s c c') (url : Text) (fetched fetched' : Bool) :
    Agree s (c.enter url fetched) (c'.enter url fetched') where
  found := h.found
  visited u hu := by simp only [Collection.visited_enter, List.mem_cons, h.visited u hu]

theorem warn (h : Agree s c c') (w : Text) : Agree s (c.warn w) (c'.warn w) := ⟨h.found, h.visited⟩

theorem declare (h : Agree s c c') (file : Text) (media : Option Text) {sheet sheet' : Css.Sheet}
    (huses : sheet'.uses = sheet.uses) : Agree s (c.declare file media sheet) (c'.declare file media sheet') where
  found := by simp only [Collection.declare, h.found, huses]
  visited := h.visited

end Agree

/-- Following a sheet that cannot be had changes nothing that counts. -/
theorem agree_of_failed {depth : Nat} {c c' : Collection} {url w : Text} {media : Option Text}
    (hw : s.fate url = .failed w) (h : gatherFrom s depth c url media = .ok c') : Agree s c c' := by
  by_cases hv : url ∈ c.visited
  · rw [gatherFrom_of_mem hv] at h
    obtain rfl := Except.ok.inj h
    exact .refl s c
  · cases depth with
    | zero =>
      rw [gatherFrom_zero hv] at h
      cases h
    | succ depth =>
      obtain ⟨fetched, heq⟩ := gatherFrom_succ s depth media hv
      rw [heq, hw] at h
      obtain rfl := Except.ok.inj h
      refine ⟨rfl, fun u hu => ?_⟩
      have hne : u ≠ url := fun he => hu w (he ▸ hw)
      simp [Collection.warn, hne]

/-- Two ways to follow sheets that keep collections in agreement. -/
structure SideBySide (s : Sources) (follow follow' : Follow) : Prop where
  alone : ∀ {c c₁ : Collection} {url w : Text} {media : Option Text}, s.fate url = .failed w →
    follow c url media = .ok c₁ → Agree s c c₁
  both : ∀ {c c' c₁ c₁' : Collection} {url : Text} {media : Option Text}, Agree s c c' →
    follow c url media = .ok c₁ → follow' c' url media = .ok c₁' → Agree s c₁ c₁'

section Following

variable {follow follow' : Follow} (hf : SideBySide s follow follow') (hpage : s'.pageUrl = s.pageUrl)

include hf hpage

theorem agree_followAll {base media : Option Text} {is is' : List (Text × Option Text)} {c c' c₁ c₁' : Collection}
    (hthin : Thinned (fun i => s.Wastes base i.1) Eq is is') (hc : Agree s c c')
    (h : followAll follow s base media is c = .ok c₁) (h' : followAll follow' s' base media is' c' = .ok c₁') :
    Agree s c₁ c₁' := by
  induction hthin generalizing c c' with
  | nil =>
    obtain rfl := Except.ok.inj h
    obtain rfl := Except.ok.inj h'
    exact hc
  | @keep i _ is is' heq hthin ih =>
    subst heq
    rw [followAll] at h h'
    rw [hpage] at h'
    cases hr : resolve s.pageUrl i.1 base with
    | error e =>
      rw [hr] at h
      cases h
    | ok url =>
      rw [hr] at h h'
      dsimp only at h h'
      cases hs : follow c url (bothMedia media i.2) with
      | error e =>
        rw [hs] at h
        cases h
      | ok c₂ =>
        cases hs' : follow' c' url (bothMedia media i.2) with
        | error e =>
          rw [hs'] at h'
          cases h'
        | ok c₂' =>
          rw [hs] at h
          rw [hs'] at h'
          exact ih (hf.both hc hs hs') h h'
  | @drop i is is' hwaste hthin ih =>
    obtain ⟨url, w, hr, hw⟩ := hwaste
    rw [followAll, hr] at h
    dsimp only at h
    cases hs : follow c url (bothMedia media i.2) with
    | error e =>
      rw [hs] at h
      cases h
    | ok c₂ =>
      rw [hs] at h
      exact ih ((hf.alone hw hs).symm.trans hc) h h'

theorem agree_collect {base media : Option Text} {f f' : Fate} {c c' c₁ c₁' : Collection} (hthin : f.Thins s base f')
    (hc : Agree s c c') (h : collect follow s base media c f = .ok c₁)
    (h' : collect follow' s' base media c' f' = .ok c₁') : Agree s c₁ c₁' := by
  cases hthin with
  | fatal e => cases h
  | failed w =>
    obtain rfl := Except.ok.inj h
    obtain rfl := Except.ok.inj h'
    exact hc.warn w
  | @read file sheet sheet' huses himports =>
    rw [collect] at h h'
    cases hs : followAll follow s base media (importsOf sheet) c with
    | error e =>
      rw [hs] at h
      cases h
    | ok c₂ =>
      cases hs' : followAll follow' s' base media (importsOf sheet') c' with
      | error e =>
        rw [hs'] at h'
        cases h'
      | ok c₂' =>
        rw [hs] at h
        rw [hs'] at h'
        obtain rfl := Except.ok.inj h
        obtain rfl := Except.ok.inj h'
        exact (agree_followAll hf hpage himports hc hs hs').declare file media huses

end Following

namespace Omits

variable (h : Omits s p s' p')

include h

theorem agree {c c' : Collection} (hc : Agree s' c c') : Agree s c c' where
  found := hc.found
  visited url hu := hc.visited url fun w hw => hu w ((h.sheets url).failed_iff.1 hw)

theorem sideBySide (depth : Nat) : SideBySide s (gatherFrom s depth) (gatherFrom s' depth) := by
  induction depth with
  | zero =>
    refine ⟨agree_of_failed, fun {c c' c₁ c₁' url media} hc hs hs' => ?_⟩
    by_cases hv : url ∈ c.visited
    · by_cases hv' : url ∈ c'.visited
      · rw [gatherFrom_of_mem hv] at hs
        rw [gatherFrom_of_mem hv'] at hs'
        obtain rfl := Except.ok.inj hs
        obtain rfl := Except.ok.inj hs'
        exact hc
      · rw [gatherFrom_zero hv'] at hs'
        cases hs'
    · rw [gatherFrom_zero hv] at hs
      cases hs
  | succ depth ih =>
    refine ⟨agree_of_failed, fun {c c' c₁ c₁' url media} hc hs hs' => ?_⟩
    by_cases hw : ∃ w, s.fate url = .failed w
    · obtain ⟨w, hw⟩ := hw
      have hw' : s'.fate url = .failed w := (h.sheets url).failed_iff.2 hw
      exact ((agree_of_failed hw hs).symm.trans hc).trans (h.agree (agree_of_failed hw' hs'))
    · have hvisited := hc.visited url (not_exists.1 hw)
      by_cases hv : url ∈ c.visited
      · rw [gatherFrom_of_mem hv] at hs
        rw [gatherFrom_of_mem (hvisited.2 hv)] at hs'
        obtain rfl := Except.ok.inj hs
        obtain rfl := Except.ok.inj hs'
        exact hc
      · obtain ⟨fetched, heq⟩ := gatherFrom_succ s depth media hv
        obtain ⟨fetched', heq'⟩ := gatherFrom_succ s' depth media (mt hvisited.1 hv)
        rw [heq] at hs
        rw [heq'] at hs'
        exact agree_collect ih h.pageUrl (h.sheets url) (hc.enter url fetched fetched') hs hs'

theorem agree_gatherStyles {styles styles' : List Text} {c c' c₁ c₁' : Collection}
    (hthin : Thinned (fun css => ∃ w, styleFate css = .failed w)
      (fun css css' => (styleFate css).Thins s none (styleFate css')) styles styles')
    (hc : Agree s c c') (hs : gatherStyles s styles c = .ok c₁) (hs' : gatherStyles s' styles' c' = .ok c₁') :
    Agree s c₁ c₁' := by
  induction hthin generalizing c c' with
  | nil =>
    obtain rfl := Except.ok.inj hs
    obtain rfl := Except.ok.inj hs'
    exact hc
  | @keep css css' styles styles' hlike hthin ih =>
    rw [gatherStyles, gatherSheet_eq, ← styleFate] at hs hs'
    cases hg : collect (gatherFrom s importDepth) s none none c (styleFate css) with
    | error e =>
      rw [hg] at hs
      cases hs
    | ok c₂ =>
      cases hg' : collect (gatherFrom s' importDepth) s' none none c' (styleFate css') with
      | error e =>
        rw [hg'] at hs'
        cases hs'
      | ok c₂' =>
        rw [hg] at hs
        rw [hg'] at hs'
        exact ih (agree_collect (h.sideBySide _) h.pageUrl hlike hc hg hg') hs hs'
  | @drop css styles styles' hfailed hthin ih =>
    obtain ⟨w, hw⟩ := hfailed
    rw [gatherStyles, gatherSheet_eq, ← styleFate, hw] at hs
    have hwarned : Agree s (c.warn w) c' := ⟨hc.found, hc.visited⟩
    exact ih hwarned hs hs'

/-- Two scans of which one meets fewer sheets that cannot be had find the same. -/
theorem agree_gather {c c' : Collection} (hg : gather s p = .ok c) (hg' : gather s' p' = .ok c') : Agree s c c' := by
  obtain ⟨c₁, hlinks, hstyles⟩ := exists_of_gather_eq_ok hg
  obtain ⟨c₁', hlinks', hstyles'⟩ := exists_of_gather_eq_ok hg'
  have hthin : Thinned (fun i => s.Wastes none i.1) Eq (pageRefs p) (pageRefs p') :=
    h.links.map (·, none) fun _ hw => hw
  have hc := agree_followAll (h.sideBySide _) h.pageUrl hthin (.refl s .empty) hlinks hlinks'
  exact h.agree_gatherStyles h.styles hc hstyles hstyles'

end Omits

end StylePrune.Sampling
