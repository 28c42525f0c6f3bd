import Mathlib
import StylePrune.Proofs.Disk.Unfolding
import StylePrune.Proofs.Sampling.Collecting
import StylePrune.Proofs.Sampling.Exploring
import StylePrune.Proofs.Url.Joining
import StylePrune.Proofs.Utf8

/-!
When a scan comes to its end. Of the sheets that a page leads to only those on its own site can make new locators
without end, and they do so only where links lead around in a circle.
-/

set_option autoImplicit false

namespace StylePrune

theorem CodePoint.toNat_lt (c : CodePoint) : c.toNat < 0x110000 := by
  cases c with
  | char c =>
    have hv := c.valid
    simp only [UInt32.isValidChar, Nat.isValidChar] at hv
    simp only [toNat, Char.toNat]
    omega
  | surrogate n =>
    have := n.isLt
    simp only [toNat]
    omega

instance : Finite CodePoint :=
  Finite.of_surjective (fun n : Fin 0x110000 => CodePoint.ofNat n) fun c => ⟨⟨c.toNat, c.toNat_lt⟩, c.ofNat_toNat⟩

namespace Sampling

variable {s : Sources} {p : Html.Page} {url ref css : Text} {m : Nat}

/-- What holds of every locator that the page refers to, or a sheet that is read and of which it holds, holds of all
that are reached. -/
theorem Reached.induct {P : Text → Prop}
    (step : ∀ base ref url, Met s p base ref →
      (∀ b, base = some b → P b ∧ ∃ file sheet, s.fate b = .read file sheet) → resolve s.pageUrl ref base = .ok url →
      P url) (h : Reached s p url) : P url := by
  obtain ⟨base, ref, hm, hr⟩ := h
  suffices hbase : ∀ b, base = some b → P b ∧ ∃ file sheet, s.fate b = .read file sheet from step base ref url hm hbase hr
  clear hr
  induction hm with
  | link => simp
  | style => simp
  | sheet hm hr hf hi ih =>
    rintro b ⟨⟩
    exact ⟨step _ _ _ hm ih hr, _, _, hf⟩

/-! ## What can be read -/

/-- A text of the site's files or of the network. -/
def Sources.Holds (s : Sources) (css : Text) : Prop :=
  (∃ e ∈ s.disk.entries.entries, ∃ bytes modified, e.2 = .file bytes modified ∧
    css = Utf8.decodeLossy (Utf8.dropMark bytes)) ∨ ∃ url, s.network url = some css

/-- The text of a file. -/
def textOf : Entry → Text
  | .file bytes _ => Utf8.decodeLossy (Utf8.dropMark bytes)
  | _ => []

theorem finite_holds (hn : {url | s.network url ≠ none}.Finite) : {css | s.Holds css}.Finite := by
  have hdisk : {css | ∃ e ∈ s.disk.entries.entries, ∃ bytes modified, e.2 = .file bytes modified ∧
      css = Utf8.decodeLossy (Utf8.dropMark bytes)}.Finite := by
    refine ((List.finite_toSet s.disk.entries.entries).image fun e => textOf e.2).subset ?_
    rintro css ⟨e, he, bytes, modified, hfile, rfl⟩
    exact ⟨e, he, by simp [hfile, textOf]⟩
  have hnetwork : {css | ∃ url, s.network url = some css}.Finite := by
    refine (hn.image fun url => (s.network url).getD []).subset ?_
    rintro css ⟨url, hurl⟩
    exact ⟨url, by simp [hurl], by simp [hurl]⟩
  exact hdisk.union hnetwork

theorem exists_of_fromSite (h : s.fromSite url = .ok (some css)) : ∃ site, s.site = some site ∧
    sharesOrigin s.pageUrl url = .ok true ∧ ∃ file, SourceKey.ofReference url = .ok file ∧
      ∃ n, Site.read site (fun _ => false) s.disk file = .ok (css, n) := by
  unfold Sources.fromSite at h
  cases hs : s.site with
  | none =>
    rw [hs] at h
    cases h
  | some site =>
    cases ho : sharesOrigin s.pageUrl url with
    | error e =>
      simp only [hs, ho] at h
      cases h
    | ok shared =>
      cases shared with
      | false =>
        simp only [hs, ho] at h
        cases h
      | true =>
        cases hk : SourceKey.ofReference url with
        | error e =>
          simp only [hs, ho, hk] at h
          cases h
        | ok file =>
          cases hr : Site.read site (fun _ => false) s.disk file with
          | error e => cases e <;> simp [hs, ho, hk, hr] at h
          | ok r =>
            obtain rfl : r.1 = css := by simpa [hs, ho, hk, hr] using h
            exact ⟨site, rfl, rfl, file, rfl, r.2, hr⟩

theorem holds_of_fromSite (h : s.fromSite url = .ok (some css)) : s.Holds css := by
  obtain ⟨site, -, -, file, -, n, hread⟩ := exists_of_fromSite h
  obtain ⟨place, bytes, modified, -, ho, -, -, hr⟩ := Site.read_eq_ok hread
  obtain ⟨q, -, he⟩ := Disk.open?_eq_ok_iff.1 ho
  obtain ⟨rfl, -⟩ := Prod.mk.inj hr
  unfold Disk.entry? at he
  split at he
  · cases he
  · exact .inl ⟨_, Table.mem_of_get? he, bytes, modified, rfl, rfl⟩

theorem parse_of_ofText {key file : Text} {sheet : Css.Sheet} (h : Fate.ofText key css = .read file sheet) :
    Css.Sheet.parse css = .ok sheet := by
  unfold Fate.ofText at h
  split at h
  · cases h
  · cases h
  · rename_i sheet' hs
    rw [hs, (Fate.read.inj h).2]

theorem source_of_load {l : Load} (h : s.load url = .ok l) (hl : l.outcome = .css css) :
    s.fromSite url = .ok (some css) ∨ s.network url = some css := by
  unfold Sources.load at h
  cases hs : s.fromSite url with
  | error e =>
    rw [hs] at h
    cases h
  | ok found =>
    cases found with
    | some css' =>
      rw [hs] at h
      obtain rfl := Except.ok.inj h
      exact .inl (by rw [Loaded.css.inj hl])
    | none =>
      cases hp : Url.parse url with
      | error e =>
        simp only [hs, hp] at h
        cases h
      | ok u =>
        simp only [hs, hp] at h
        split at h
        · obtain rfl := Except.ok.inj h
          cases hn : s.network url with
          | none => simp [hn] at hl
          | some css' => exact .inr (by simpa [hn] using hl)
        · obtain rfl := Except.ok.inj h
          cases hl

/-- A sheet that is read comes from the site, or else from the network. -/
theorem exists_of_fate_eq_read {file : Text} {sheet : Css.Sheet} (h : s.fate url = .read file sheet) :
    ∃ css, Css.Sheet.parse css = .ok sheet ∧ (s.fromSite url = .ok (some css) ∨ s.network url = some css) := by
  unfold Sources.fate at h
  cases hl : s.load url with
  | error e =>
    rw [hl] at h
    cases h
  | ok l =>
    simp only [hl, Fate.ofLoad] at h
    cases ho : l.outcome with
    | unreadable =>
      rw [ho] at h
      cases h
    | unreachable =>
      rw [ho] at h
      cases h
    | css css =>
      cases hk : SourceKey.ofReference url with
      | error e =>
        simp only [ho, hk] at h
        cases h
      | ok key =>
        simp only [ho, hk] at h
        exact ⟨css, parse_of_ofText h, source_of_load hl ho⟩

/-- The references that the page or a text that can be read has. -/
def references (s : Sources) (p : Html.Page) : Set Text :=
  {href | href ∈ p.stylesheetLinks} ∪
    ⋃ css ∈ {css | css ∈ p.styles} ∪ {css | s.Holds css},
      {ref | ∃ sheet, Css.Sheet.parse css = .ok sheet ∧ ref ∈ (importsOf sheet).map Prod.fst}

theorem finite_references (hn : {url | s.network url ≠ none}.Finite) : (references s p).Finite := by
  have htexts := (List.finite_toSet p.styles).union (finite_holds hn)
  refine (List.finite_toSet p.stylesheetLinks).union (htexts.biUnion fun css _ => ?_)
  cases hs : Css.Sheet.parse css with
  | error e => simp
  | ok sheet =>
    refine (List.finite_toSet ((importsOf sheet).map Prod.fst)).subset ?_
    rintro ref ⟨sheet', h, href⟩
    obtain rfl := Except.ok.inj h
    exact href

theorem Met.reached {base : Text} (h : Met s p (some base) ref) : Reached s p base := by
  cases h with
  | sheet hm hr => exact ⟨_, _, hm, hr⟩

theorem Met.mem_references {base : Option Text} (h : Met s p base ref) : ref ∈ references s p := by
  have htext {css : Text} (hcss : css ∈ p.styles ∨ s.Holds css) {sheet : Css.Sheet} {i : Text × Option Text}
      (hs : Css.Sheet.parse css = .ok sheet) (hi : i ∈ importsOf sheet) : i.1 ∈ references s p :=
    .inr (Set.mem_biUnion hcss ⟨sheet, hs, List.mem_map_of_mem hi⟩)
  cases h with
  | link h => exact .inl h
  | style hcss hf hi => exact htext (.inl hcss) (parse_of_ofText hf) hi
  | sheet hm hr hf hi =>
    obtain ⟨css, hs, hfrom⟩ := exists_of_fate_eq_read hf
    exact htext (.inr (hfrom.elim holds_of_fromSite fun hn => .inr ⟨_, hn⟩)) hs hi

/-! ## How far the site's own sheets lead -/

/-- The place of a reference that stands in no sheet, or in one without locator. -/
theorem basisOf_cases (base pageUrl : Option Text) :
    base = some (basisOf base pageUrl) ∨ (basisOf base pageUrl).length ≤ (pageUrl.getD []).length + 1 := by
  unfold basisOf
  split
  · exact .inl rfl
  · exact .inr (Nat.le_succ _)
  · exact .inr (by simp)

/-- The page or a sheet of the network has a reference that leads there. -/
def LedByOthers (s : Sources) (p : Html.Page) (url : Text) : Prop :=
  ∃ ref ∈ references s p, ∃ base ∈ insert none (some '' {u | s.network u ≠ none}),
    resolve s.pageUrl ref base = .ok url

theorem finite_ledByOthers (hn : {url | s.network url ≠ none}.Finite) : {url | LedByOthers s p url}.Finite := by
  have hbases : (insert none (some '' {u | s.network u ≠ none})).Finite := (hn.image some).insert none
  have hall : (⋃ ref ∈ references s p, ⋃ base ∈ insert none (some '' {u | s.network u ≠ none}),
      {url | resolve s.pageUrl ref base = .ok url}).Finite := by
    refine (finite_references hn).biUnion fun ref _ => hbases.biUnion fun base _ => Set.Subsingleton.finite ?_
    intro url hurl url' hurl'
    exact Except.ok.inj (hurl.symm.trans hurl')
  refine hall.subset ?_
  rintro url ⟨ref, href, base, hbase, hres⟩
  exact Set.mem_biUnion href (Set.mem_biUnion hbase hres)

/-- How long what the site's sheets lead to can get where no reference is longer than `m`. -/
def Sources.lengthBound (s : Sources) (m : Nat) : Nat := Url.lengthBound m m (m + s.disk.entries.entries.length + 7)

section Bounded

variable (hm : ∀ ref ∈ references s p, ref.length ≤ m) (hpage : (s.pageUrl.getD []).length < m)

include hm hpage

theorem Reached.tame (h : Reached s p url) : Url.Tame m url := by
  refine h.induct fun base ref url hmet hbase hr => ?_
  refine Url.Tame.join ?_ (hm ref hmet.mem_references) hr
  rcases basisOf_cases base s.pageUrl with hb | hb
  · exact (hbase _ hb).1
  · exact Url.tame_of_length_le (by omega)

omit hm in
theorem length_netloc_le (h : sharesOrigin s.pageUrl url = .ok true) {b : Url} (hb : Url.parse url = .ok b) :
    b.netloc.length ≤ m := by
  unfold sharesOrigin at h
  rw [hb] at h
  by_cases hnil : b.netloc = []
  · simp [hnil]
  · cases hp : s.pageUrl with
    | none => simp [hp, hnil] at h
    | some page =>
      cases page with
      | nil => simp [hp, hnil] at h
      | cons c page =>
        cases hq : Url.parse (c :: page) with
        | error e => simp [hp, hnil, hq, Except.map] at h
        | ok q =>
          obtain ⟨-, hsame⟩ : b.scheme = q.scheme ∧ b.netloc = q.netloc := by simpa [hp, hnil, hq, Except.map] using h
          have hlen := (Url.length_le_of_parseUnder hq).1
          rw [hp, Option.getD_some] at hpage
          exact hsame ▸ hlen.trans hpage.le

omit hm in
/-- Where links form no circle a sheet of the site has few segments before its name. -/
theorem bounds_of_fromSite (hr : s.disk.Rooted)
    (hu : ∀ site, s.site = some site → site.Unfolds s.disk) (ht : Url.Tame m url)
    (h : s.fromSite url = .ok (some css)) {b : Url} (hb : Url.parse url = .ok b) :
    b.netloc.length ≤ m ∧ (Text.splitOn '/' b.path).length ≤ m + s.disk.entries.entries.length + 7 := by
  obtain ⟨site, hsite, horigin, file, hfile, n, hread⟩ := exists_of_fromSite h
  obtain ⟨place, -, -, hlocate, -⟩ := Site.read_eq_ok hread
  refine ⟨length_netloc_le hpage horigin hb, ?_⟩
  by_cases hnil : b.path = []
  · have hone : (Text.splitOn '/' b.path).length = 1 := by rw [hnil]; rfl
    omega
  · obtain ⟨-, hcore⟩ := ht b hb
    obtain ⟨hslash, -⟩ := Url.exists_core_of_parseUnder hb
    have hunslash := Url.length_splitOn_unslash b.path
    rcases (hcore.path hslash).1.length_splitOn_le with hfew | ⟨hown, hlen⟩
    · omega
    · have hkey : file = b.path.dropWhile (· = .char '/') := by
        obtain ⟨hinline, -⟩ := Site.locate_eq_ok hlocate
        unfold SourceKey.ofReference at hfile
        split at hfile
        · rename_i hurl
          exact absurd (Except.ok.inj hfile ▸ hurl) hinline
        · simpa [hb, hnil, Except.map, eq_comm] using hfile
      rw [Url.dropWhile_unslash, ← hkey] at hown hlen
      have habs : Path.isAbsolute file = false := by
        have := List.head?_dropWhile_not (fun c => decide (c = CodePoint.char '/')) b.path
        rw [← hkey] at this
        unfold Path.isAbsolute
        cases file with
        | nil => rfl
        | cons c file => simpa using this
      have hkeylen := Site.length_le_of_locate hr (hu site hsite) hlocate habs hown
      omega

/-- What the site's own sheets lead to is not too long, unless the page or the network leads there as well. -/
theorem Reached.length_le_or (hr : s.disk.Rooted)
    (hu : ∀ site, s.site = some site → site.Unfolds s.disk) (h : Reached s p url) :
    url.length ≤ s.lengthBound m ∨ LedByOthers s p url := by
  have hsmall : m ≤ s.lengthBound m := by
    unfold Sources.lengthBound Url.lengthBound
    omega
  refine h.induct (P := fun url => url.length ≤ s.lengthBound m ∨ LedByOthers s p url) fun base ref url hmet hbase hres => ?_
  cases base with
  | none => exact .inr ⟨ref, hmet.mem_references, none, Set.mem_insert _ _, hres⟩
  | some b =>
    obtain ⟨hb, file, sheet, hf⟩ := hbase b rfl
    have htame := hmet.reached.tame hm hpage
    have href := hm ref hmet.mem_references
    obtain ⟨css, -, hsite | hnet⟩ := exists_of_fate_eq_read hf
    · rcases basisOf_cases (some b) s.pageUrl with hbasis | hshort
      · have hjoin : Url.join b ref = .ok url := Option.some.inj hbasis ▸ hres
        rcases htame.length_join_le (fun u => bounds_of_fromSite hpage hr hu htame hsite) href hjoin with rfl | hlen
        · exact hb
        · exact .inl hlen
      · have hshort : (basisOf (some b) s.pageUrl).length ≤ m := by omega
        refine .inl ?_
        have hparts (u : Url) (hu : Url.parse (basisOf (some b) s.pageUrl) = .ok u) : u.netloc.length ≤ m ∧
            (Text.splitOn '/' u.path).length ≤ m + s.disk.entries.entries.length + 7 := by
          obtain ⟨hnetloc, hcore, -, -⟩ := Url.length_le_of_parseUnder hu
          have hcount := Text.length_splitOn_le '/' u.path
          rw [Url.core_eq, List.length_append] at hcore
          exact ⟨hnetloc.trans hshort, by omega⟩
        rcases (Url.tame_of_length_le hshort).length_join_le hparts href hres with rfl | hlen
        · exact hshort.trans hsmall
        · exact hlen
    · exact .inr ⟨ref, hmet.mem_references, some b, .inr ⟨b, by simp [hnet], rfl⟩, hres⟩

end Bounded

theorem finite_reached (hn : {url | s.network url ≠ none}.Finite) (hr : s.disk.Rooted)
    (hu : ∀ site, s.site = some site → site.Unfolds s.disk) :
    {url | Reached s p url}.Finite := by
  obtain ⟨k, hk⟩ := ((finite_references (p := p) hn).image List.length).bddAbove
  have hlen (ref : Text) (href : ref ∈ references s p) : ref.length ≤ max k ((s.pageUrl.getD []).length + 1) :=
    le_max_of_le_left (hk ⟨ref, href, rfl⟩)
  have hpage : (s.pageUrl.getD []).length < max k ((s.pageUrl.getD []).length + 1) :=
    lt_of_lt_of_le (Nat.lt_succ_self _) (le_max_right _ _)
  exact ((List.finite_length_le CodePoint (s.lengthBound (max k ((s.pageUrl.getD []).length + 1)))).union
    (finite_ledByOthers hn)).subset fun url h => h.length_le_or hlen hpage hr hu

/-- A scan meets finitely many sheets, each once, if links form no circle. If it does not get through, something that
it meets ends it, or there are more sheets than it can follow one from another. -/
theorem gather_ends (hn : {url | s.network url ≠ none}.Finite) (hr : s.disk.Rooted)
    (hu : ∀ site, s.site = some site → site.Unfolds s.disk) :
    {url | Reached s p url}.Finite ∧
    (∀ c, gather s p = .ok c → c.visited.Nodup ∧ ∀ url, url ∈ c.visited ↔ Reached s p url) ∧
    ∀ e, gather s p = .error e → Faulty s p e ∨ e = .tooDeep ∧ importDepth < {url | Reached s p url}.ncard := by
  have hfinite : {url | Reached s p url}.Finite := finite_reached hn hr hu
  refine ⟨hfinite, fun c hc => ⟨(noted_of_gather hc).1, fun url => mem_visited_iff hc⟩, fun e he => ?_⟩
  refine (faulty_or_deep_of_gather he).imp_right ?_
  rintro ⟨htoo, urls, hlen, hnodup, -, hreached⟩
  refine ⟨htoo, ?_⟩
  have hsub : (urls.toFinset : Set Text) ⊆ {url | Reached s p url} := fun url h => hreached url (List.mem_toFinset.1 h)
  have hcard := Set.ncard_le_ncard hsub hfinite
  rw [Set.ncard_coe_finset, List.toFinset_card_of_nodup hnodup, hlen] at hcard
  exact hcard

/-- A page that links to one sheet. -/
def linking : Html.Page := ⟨[⟨"link", [("rel", "stylesheet"), ("href", "/a.css")], []⟩]⟩

/-- A site of which the only sheet imports itself. -/
def selfImporting : Sources where
  site := some Site.small
  pageUrl := none
  disk := ⟨Table.ofList [(["a.css"], .file "@import \"a.css\";".toUTF8.toList 0)]⟩
  network := fun _ => none

theorem gather_ends_selfImporting : {url | selfImporting.network url ≠ none}.Finite ∧ selfImporting.disk.Rooted ∧
    (∀ site, selfImporting.site = some site → site.Unfolds selfImporting.disk) ∧
    {url | Reached selfImporting linking url}.Finite ∧
    (∀ c, gather selfImporting linking = .ok c →
      c.visited.Nodup ∧ ∀ url, url ∈ c.visited ↔ Reached selfImporting linking url) ∧
    ∀ e, gather selfImporting linking = .error e →
      Faulty selfImporting linking e ∨
        e = .tooDeep ∧ importDepth < {url | Reached selfImporting linking url}.ncard := by
  have hentries : selfImporting.disk.entries.entries =
      [(([("a.css" : Text)] : Place), Entry.file "@import \"a.css\";".toUTF8.toList 0)] := rfl
  have hn : {url | selfImporting.network url ≠ none}.Finite := by simp [selfImporting]
  have hr : selfImporting.disk.Rooted := by
    refine Disk.rooted_of_entries ?_
    rw [hentries]
    exact List.forall_mem_singleton.2 rfl
  have hu (site : Site) (_ : selfImporting.site = some site) : site.Unfolds selfImporting.disk :=
    Site.unfolds_of_unlinked (Disk.unlinked_of_entries (by simp [hentries]))
  exact ⟨hn, hr, hu, gather_ends hn hr hu⟩

/-! ## A circle of links -/

def circleBytes : Bytes :=
  [0x40, 0x69, 0x6D, 0x70, 0x6F, 0x72, 0x74, 0x20, 0x22, 0x78, 0x2F, 0x61, 0x2E, 0x63, 0x73, 0x73, 0x22, 0x3B]

/-- A site with a link to its own root, through which the only sheet imports itself. -/
def circling : Sources where
  site := some Site.small
  pageUrl := none
  disk := ⟨Table.ofList [(["a.css"], .file circleBytes 0), (["x"], .link ".")]⟩
  network := fun _ => none

def rounds (k : Nat) : List Text := List.replicate k (Text.ofString "x") ++ [Text.ofString "a.css"]

/-- The sheet's key after so many rounds. -/
def roundKey (k : Nat) : Text := Text.joinWith ['/'] (rounds k)

def roundUrl (k : Nat) : Text := .char '/' :: roundKey k

theorem roundUrl_ne_nil (k : Nat) : roundUrl k ≠ [] := List.cons_ne_nil _ _

theorem mem_rounds {k : Nat} {w : Text} (h : w ∈ rounds k) : w = "x" ∨ w = "a.css" :=
  (List.mem_append.1 h).imp List.eq_of_mem_replicate List.mem_singleton.1

theorem splitOn_roundKey (k : Nat) : Text.splitOn '/' (roundKey k) = rounds k := by
  refine Text.splitOn_joinWith (by simp [rounds]) fun w hw => ?_
  rcases mem_rounds hw with rfl | rfl <;> decide

theorem roundKey_succ (k : Nat) : roundKey (k + 1) = "x/" ++ roundKey k := by
  unfold roundKey rounds
  rw [List.replicate_succ, List.cons_append]
  cases k <;> rfl

theorem head?_roundKey (k : Nat) : (roundKey k).head? ≠ some (.char '/') := by
  cases k with
  | zero => decide
  | succ k =>
    rw [roundKey_succ]
    exact fun h => absurd (Option.some.inj h) (by decide)

theorem resolveFrom_rounds (k : Nat) :
    circling.disk.resolveFrom 2 [] [] (rounds k) = .ok ([Text.ofString "a.css"], true) := by
  induction k with
  | zero => cbv
  | succ k ih =>
    have hlink : circling.disk.entry? [Text.ofString "x"] = some (.link ".") := rfl
    have hhere : circling.disk.resolveFrom 1 [[Text.ofString "x"]] [] (Text.splitOn '/' ".") = .ok ([], true) := by cbv
    have hname : Disk.badName? (Text.ofString "x") = none := rfl
    have habs : Path.isAbsolute (Text.ofString ".") = false := rfl
    have hrounds : rounds (k + 1) = Text.ofString "x" :: rounds k := rfl
    rw [hrounds, Disk.resolveFrom, if_neg (by decide), if_neg (by decide), hname]
    simp [hlink, hhere, ih, habs]

theorem read_round (k : Nat) :
    Site.read Site.small (fun _ => false) circling.disk (roundKey k) = .ok ("@import \"x/a.css\";", 18) := by
  have hroot : circling.disk.resolve Site.small.root = .ok [] := by cbv
  have hjoin : Path.join (Disk.pathOf []) (roundKey k) = roundUrl k := by
    unfold Path.join
    rw [if_neg (by simp [Path.isAbsolute, head?_roundKey]), if_pos (.inr rfl)]
    rfl
  have hplace : circling.disk.resolve (Path.join (Disk.pathOf []) (roundKey k)) = .ok [("a.css" : Text)] := by
    have hsplit : Text.splitOn '/' (roundUrl k) = [] :: rounds k := by
      rw [roundUrl, Text.splitOn_cons_of_eq rfl, splitOn_roundKey]
    rw [hjoin, Disk.resolve, hsplit, Disk.resolveFrom, if_pos (.inl rfl)]
    have hlength : circling.disk.entries.entries.length = 2 := rfl
    rw [hlength, resolveFrom_rounds]
    rfl
  have ho : circling.disk.open? (Disk.pathOf [("a.css" : Text)]) = .ok (circleBytes, 0) := by cbv
  have hinline : roundKey k ≠ SourceKey.inline := by
    cases k with
    | zero => decide
    | succ k =>
      rw [roundKey_succ]
      exact fun h => absurd (List.cons.inj h).1 (by decide)
  rw [Site.read_of_resolve hinline hroot hplace (by decide) ho (by decide) rfl]
  cbv

theorem splitOn_roundUrl (k : Nat) : Text.splitOn '/' (roundUrl k) = [] :: rounds k := by
  rw [roundUrl, Text.splitOn_cons_of_eq rfl, splitOn_roundKey]

theorem parse_roundUrl (k : Nat) : Url.parse (roundUrl k) = .ok ⟨[], [], roundUrl k, [], [], []⟩ := by
  have hnames : ∀ w ∈ [Text.ofString "x", Text.ofString "a.css"], ∀ c ∈ w,
      Url.isMark c = false ∧ Url.isBreak c = false ∧ c ≠ ';' := by decide
  refine Url.parse_of_plain rfl ?_ (List.forall_mem_cons.2 ⟨by decide, fun c hc => ?_⟩)
  · cases k with
    | zero => rfl
    | succ k =>
      rw [roundUrl, roundKey_succ]
      rfl
  · rcases Url.mem_of_mem_joinWith hc with rfl | ⟨w, hw, hcw⟩
    · decide
    · exact hnames w (by simpa using mem_rounds hw) c hcw

theorem mergeSegments_roundUrl (k : Nat) : Url.mergeSegments (roundUrl k) "x/a.css" = [] :: rounds (k + 1) := by
  have hrelative : ¬ (Text.ofString "x/a.css").head? = some (.char '/') := by decide
  have hlast : ¬ ([] :: rounds k).getLast? = some [] := by
    rw [rounds, ← List.cons_append, List.getLast?_concat]
    decide
  have hdirs : ([] :: rounds k).dropLast = [] :: List.replicate k (Text.ofString "x") := by
    rw [rounds, ← List.cons_append, List.dropLast_concat]
  have hsplit : Text.splitOn '/' "x/a.css" = [Text.ofString "x", Text.ofString "a.css"] := rfl
  have hrest : List.replicate k (Text.ofString "x") ++ [Text.ofString "x", Text.ofString "a.css"] = rounds (k + 1) := by
    rw [rounds, List.replicate_succ', List.append_assoc]
    rfl
  have hfilter : (List.replicate (k + 1) (Text.ofString "x")).filter (· ≠ []) =
      List.replicate (k + 1) (Text.ofString "x") := by
    refine List.filter_eq_self.2 fun w hw => ?_
    rw [List.eq_of_mem_replicate hw]
    rfl
  simp only [Url.mergeSegments, if_neg hrelative, splitOn_roundUrl, if_neg hlast, hdirs, hsplit, List.cons_append, hrest]
  rw [rounds, List.dropLast_concat, hfilter, List.getLast?_concat]
  rfl

theorem resolvePath_rounds (k : Nat) : Url.resolvePath ([] :: rounds k) = roundUrl k := by
  have hplain : ∀ w ∈ [] :: rounds k, w ≠ "." ∧ w ≠ ".." := by
    refine List.forall_mem_cons.2 ⟨by decide, fun w hw => ?_⟩
    rcases mem_rounds hw with rfl | rfl <;> decide
  have hjoin : Text.joinWith ['/'] ([] :: rounds k) = roundUrl k := by
    unfold roundUrl roundKey
    cases k <;> rfl
  rw [Url.resolvePath_eq, Url.followed_of_forall hplain, hjoin, if_neg (roundUrl_ne_nil k)]

/-- Each round leads to the next one. -/
theorem resolve_roundUrl (k : Nat) : resolve none "x/a.css" (some (roundUrl k)) = .ok (roundUrl (k + 1)) := by
  have href : Url.parseUnder [] "x/a.css" = .ok ⟨[], [], "x/a.css", [], [], []⟩ := rfl
  have hbasis : basisOf (some (roundUrl k)) none = roundUrl k := rfl
  have hrel : ([] : Text) ∈ Url.relativeSchemes := List.mem_cons_self
  have hpath : Text.ofString "x/a.css" ≠ [] := by decide
  have hrender : (⟨[], [], roundUrl (k + 1), [], [], []⟩ : Url).render = roundUrl (k + 1) := by simp [Url.render]
  rw [resolve, hbasis, Url.join, if_neg (roundUrl_ne_nil k), if_neg hpath, parse_roundUrl]
  simp only [bind, Except.bind, href, hrel, Url.mem_netlocSchemes hrel, hpath, ne_eq, not_true_eq_false, or_false,
    false_and, and_false, if_true, if_false, mergeSegments_roundUrl, resolvePath_rounds]
  exact congrArg _ hrender

theorem fate_circling (k : Nat) : ∃ sheet, circling.fate (roundUrl k) = .read (roundKey k) sheet ∧
    importsOf sheet = [(Text.ofString "x/a.css", none)] := by
  have horigin : sharesOrigin circling.pageUrl (roundUrl k) = .ok true := by
    rw [sharesOrigin, parse_roundUrl]
    rfl
  have hkey : SourceKey.ofReference (roundUrl k) = .ok (roundKey k) := by
    have hinline : roundUrl k ≠ SourceKey.inline := fun h => absurd (List.cons.inj h).1 (by decide)
    have hdrop : (roundUrl k).dropWhile (· = .char '/') = roundKey k := by
      have hhead := head?_roundKey k
      rw [roundUrl, List.dropWhile_cons_of_pos (by decide)]
      cases hk : roundKey k with
      | nil => rfl
      | cons c t => exact List.dropWhile_cons_of_neg (by simpa [hk] using hhead)
    rw [SourceKey.ofReference, if_neg hinline, parse_roundUrl, Except.map]
    simp only [if_neg (roundUrl_ne_nil k), hdrop]
  have hsite : circling.fromSite (roundUrl k) = .ok (some "@import \"x/a.css\";") :=
    Sources.fromSite_of_read (s := circling) rfl horigin hkey (read_round k)
  have hload : circling.load (roundUrl k) = .ok ⟨.css "@import \"x/a.css\";", false⟩ := by
    simp only [Sources.load, hsite]
  have hread : circling.fate (roundUrl k) = .ofText (roundKey k) "@import \"x/a.css\";" := by
    rw [Sources.fate, hload]
    simp only [Fate.ofLoad, hkey]
  have hparse : Css.Sheet.parse "@import \"x/a.css\";" =
      .ok ⟨[.statement ⟨[], "import", "@import \"x/a.css\";", some ("x/a.css" : Text), none⟩], []⟩ := by cbv
  rw [hread, Fate.ofText, hparse]
  exact ⟨_, rfl, rfl⟩

theorem reached_roundUrl (k : Nat) : Reached circling linking (roundUrl k) := by
  induction k with
  | zero => exact ⟨none, "/a.css", .link (by decide), rfl⟩
  | succ k ih =>
    obtain ⟨base, ref, hm, hr⟩ := ih
    obtain ⟨sheet, hf, hi⟩ := fate_circling k
    exact ⟨some (roundUrl k), "x/a.css", .sheet (i := ("x/a.css", none)) hm hr hf (by rw [hi]; exact List.mem_cons_self),
      resolve_roundUrl k⟩

theorem met_circling {base : Option Text} (h : Met circling linking base ref) :
    base = none ∧ ref = "/a.css" ∨ ∃ k, base = some (roundUrl k) ∧ ref = "x/a.css" := by
  have hlinks : linking.stylesheetLinks = [Text.ofString "/a.css"] := rfl
  have hstyles : linking.styles = [] := rfl
  induction h with
  | link h => exact .inl ⟨rfl, List.mem_singleton.1 (hlinks ▸ h)⟩
  | style h => exact absurd (hstyles ▸ h) List.not_mem_nil
  | sheet hm hr hf hi ih =>
    right
    obtain ⟨k, rfl⟩ : ∃ k, _ = roundUrl k := by
      rcases ih with ⟨rfl, rfl⟩ | ⟨k, rfl, rfl⟩
      · exact ⟨0, (Except.ok.inj hr).symm⟩
      · exact ⟨k + 1, Except.ok.inj (hr.symm.trans (resolve_roundUrl k))⟩
    obtain ⟨sheet, hf', hi'⟩ := fate_circling k
    obtain ⟨-, rfl⟩ := Fate.read.inj (hf.symm.trans hf')
    rw [hi', List.mem_singleton] at hi
    exact ⟨k, rfl, by rw [hi]⟩

/-- A circle of links leads on without end, though nothing that is met is at fault, and so the scan is given up. -/
theorem not_finite_reached_circling :
    ¬ {url | Reached circling linking url}.Finite ∧ (∀ e, ¬ Faulty circling linking e) ∧
      gather circling linking = .error .tooDeep := by
  have hinfinite : ¬ {url | Reached circling linking url}.Finite := by
    have hinj : Function.Injective roundUrl := by
      intro j k h
      have hlen := congrArg List.length (congrArg (Text.splitOn '/') h)
      rw [splitOn_roundUrl, splitOn_roundUrl] at hlen
      simpa [rounds] using hlen
    exact fun hfinite => Set.infinite_of_injective_forall_mem hinj reached_roundUrl hfinite
  have hresolve {base : Option Text} {ref : Text} (hm : Met circling linking base ref) :
      ∃ k, resolve circling.pageUrl ref base = .ok (roundUrl k) := by
    rcases met_circling hm with ⟨rfl, rfl⟩ | ⟨k, rfl, rfl⟩
    · exact ⟨0, rfl⟩
    · exact ⟨k + 1, resolve_roundUrl k⟩
  have hfault (e : ScanError) : ¬ Faulty circling linking e := by
    rintro (⟨hm, he⟩ | ⟨⟨base, ref, hm, hr⟩, he⟩ | ⟨hcss, -⟩)
    · obtain ⟨k, hk⟩ := hresolve hm
      cases hk.symm.trans he
    · obtain ⟨k, hk⟩ := hresolve hm
      obtain rfl := Except.ok.inj (hk.symm.trans hr)
      obtain ⟨sheet, hf, -⟩ := fate_circling k
      cases hf.symm.trans he
    · exact List.not_mem_nil hcss
  refine ⟨hinfinite, hfault, ?_⟩
  cases hg : gather circling linking with
  | ok c =>
    exact absurd ((List.finite_toSet c.visited).subset fun url h => (mem_visited_iff hg).2 h) hinfinite
  | error e =>
    rcases faulty_or_deep_of_gather hg with hf | ⟨rfl, -⟩
    · exact absurd hf (hfault e)
    · rfl

end Sampling
end StylePrune
