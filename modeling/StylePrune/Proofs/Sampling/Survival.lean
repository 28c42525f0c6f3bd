import StylePrune.Proofs.Sampling.Collecting
import StylePrune.Proofs.Sampling.Omission
import StylePrune.Proofs.Site

/-!
What a scan survives. Sheets that cannot be read, fetched or parsed cost a warning each and nothing else; a reference
that is no locator, a file name that no file has, a number that is too long and imports that lead too deep cost the scan.
-/

set_option autoImplicit false

namespace StylePrune.Sampling

/-- A scan depends on what was found and on what the document matches of it; what else was collected is handed on. -/
theorem step_congr {m : Sampler} {matched matched' : Text → Bool} {c c' : Collection} (hfound : c'.found = c.found)
    (hmatched : ∀ x ∈ c.found, matched' (recordFor m.records x).sighting.selector =
      matched (recordFor m.records x).sighting.selector) :
    m.step matched' c' = ({ (m.step matched c).1 with
      warnings := c'.warnings ++ (duplicates c.found).warnings, fetched := c'.fetched }, (m.step matched c).2) := by
  have hrecords : ∀ r ∈ (recordsOf m.records c.found).entries.map Prod.snd,
      matched' r.sighting.selector = matched r.sighting.selector := by
    intro r hr
    obtain ⟨x, hx, rfl⟩ := mem_entries_recordsOf.1 hr
    exact hmatched x hx
  have htested : (recordsOf m.records c.found).map (fun _ => testRecord fun x => m.used.contains x || matched' x) =
      (recordsOf m.records c.found).map fun _ => testRecord fun x => m.used.contains x || matched x := by
    refine Table.map_congr fun e he => ?_
    rw [testRecord, testRecord, hrecords e.2 (List.mem_map_of_mem he)]
  have hnew : newlyUsed (fun x => m.used.contains x || matched' x)
        ((recordsOf m.records c.found).entries.map Prod.snd) =
      newlyUsed (fun x => m.used.contains x || matched x)
        ((recordsOf m.records c.found).entries.map Prod.snd) := by
    rw [newlyUsed, newlyUsed, List.filter_congr fun r hr => by rw [hrecords r hr]]
  simp only [Sampler.step, hfound, htested, hnew]

theorem exists_gather_of_scan {m : Sampler} {s : Sources} {p : Html.Page} {scan : Scan} {next : Sampler}
    (h : m.scan s p = .ok (scan, next)) : ∃ c, gather s p = .ok c ∧ m.step p.selects c = (scan, next) := by
  rw [Sampler.scan] at h
  cases hg : gather s p with
  | error e =>
    rw [hg] at h
    cases h
  | ok c =>
    rw [hg] at h
    exact ⟨c, rfl, Except.ok.inj h⟩

theorem exists_scan_eq_error_iff {m : Sampler} {s : Sources} {p : Html.Page} {e : ScanError} :
    m.scan s p = .error e ↔ gather s p = .error e := by
  rw [Sampler.scan]
  cases gather s p with
  | error e' => simp [Except.map]
  | ok c => simp [Except.map]

/-- Whatever sheets cannot be had, the others are scanned as if nothing had referred to them. -/
theorem scan_of_omits {m : Sampler} {s s' : Sources} {p p' : Html.Page} {scan : Scan} {next : Sampler}
    (h : m.scan s p = .ok (scan, next)) (ho : Omits s p s' p') (hdeep : ¬ Deep s' p')
    (hselects : ∀ r ∈ scan.records, p'.selects r.sighting.selector = p.selects r.sighting.selector) :
    ∃ warnings fetched, m.scan s' p' = .ok ({ scan with warnings := warnings, fetched := fetched }, next) := by
  obtain ⟨c, hg, hstep⟩ := exists_gather_of_scan h
  cases hg' : gather s' p' with
  | error e =>
    rcases faulty_or_deep_of_gather hg' with hfault | ⟨-, hd⟩
    · exact absurd (ho.faulty hfault) (not_faulty_of_gather hg e)
    · exact absurd hd hdeep
  | ok c' =>
    have hmatched : ∀ x ∈ c.found, p'.selects (recordFor m.records x).sighting.selector =
        p.selects (recordFor m.records x).sighting.selector := by
      intro x hx
      have hr : testRecord (m.counts p.selects) (recordFor m.records x) ∈ scan.records := by
        have hscan : (m.step p.selects c).1 = scan := congrArg Prod.fst hstep
        rw [← hscan]
        exact Sampler.mem_records_step.2 ⟨x, hx, rfl⟩
      simpa only [sighting_testRecord] using hselects _ hr
    refine ⟨c'.warnings ++ (duplicates c.found).warnings, c'.fetched, ?_⟩
    rw [Sampler.scan, hg', Except.map, step_congr (ho.agree_gather hg hg').found hmatched, hstep]

theorem not_deep_of_not_imports {s : Sources} {p : Html.Page} (h : ∀ url url', ¬ s.Imports url url') :
    ¬ Deep s p := by
  rintro ⟨urls, hlength, -, hchain, -⟩
  match urls with
  | [] => cases hlength
  | [_] => cases hlength
  | url :: url' :: _ => exact h url url' (List.isChain_cons_cons.1 hchain).1

def bracketBytes : Bytes :=
  [0x40, 0x69, 0x6D, 0x70, 0x6F, 0x72, 0x74, 0x20, 0x22, 0x68, 0x74, 0x74, 0x70, 0x3A, 0x2F, 0x2F, 0x5B, 0x22, 0x3B,
    0x2E, 0x78, 0x7B, 0x7D]

/-- A site whose only sheet imports an address with an open bracket before its own rule. -/
def bracketed : Visit where
  page := ⟨[⟨"link", [("rel", "stylesheet"), ("href", "/a.css")], []⟩]⟩
  sources := {
    site := some Site.small
    pageUrl := none
    disk := ⟨Table.ofList [(["a.css"], .file bracketBytes 0)]⟩
    network := fun _ => none }

theorem read_bracketed : Site.read Site.small (fun _ => false) bracketed.sources.disk "a.css" =
    .ok ("@import \"http://[\";.x\x7b\x7d", 23) := by
  have hroot : bracketed.sources.disk.resolve Site.small.root = .ok [] := by cbv
  have hplace : bracketed.sources.disk.resolve (Path.join (Disk.pathOf []) "a.css") = .ok [("a.css" : Text)] := by cbv
  have ho : bracketed.sources.disk.open? (Disk.pathOf [("a.css" : Text)]) = .ok (bracketBytes, 0) := by cbv
  rw [Site.read_of_resolve (by decide) hroot hplace (by decide) ho (by cbv) rfl]
  cbv

theorem parse_bracketed : Css.Sheet.parse "@import \"http://[\";.x\x7b\x7d" = .ok ⟨[
    .statement ⟨[], "import", "@import \"http://[\";", some ("http://[" : Text), none⟩,
    .block ⟨[], some (".x\x7b\x7d" : Text), ".x", [], [(".x" : Text)]⟩], []⟩ := by cbv

theorem fate_bracketed : ∃ sheet, bracketed.sources.fate "/a.css" = .read "a.css" sheet ∧
    importsOf sheet = [(("http://[" : Text), none)] := by
  have hsite : bracketed.sources.fromSite "/a.css" = .ok (some "@import \"http://[\";.x\x7b\x7d") :=
    Sources.fromSite_of_read (s := bracketed.sources) rfl rfl rfl read_bracketed
  have hload : bracketed.sources.load "/a.css" = .ok ⟨.css "@import \"http://[\";.x\x7b\x7d", false⟩ := by
    simp only [Sources.load, hsite]
  have hkey : SourceKey.ofReference "/a.css" = .ok "a.css" := rfl
  have hread : bracketed.sources.fate "/a.css" = .ofText "a.css" "@import \"http://[\";.x\x7b\x7d" := by
    rw [Sources.fate, hload]
    simp only [Fate.ofLoad, hkey]
  rw [hread, Fate.ofText, parse_bracketed]
  exact ⟨_, rfl, rfl⟩

/-- A page that links to a sheet nobody can read, and has a style of its own. -/
def strayLinked : Html.Page := ⟨[⟨"link", [("rel", "stylesheet"), ("href", "ftp://h")], []⟩, ⟨"style", [], ".y\x7b\x7d"⟩]⟩

def unlinked : Html.Page := ⟨[⟨"style", [], ".y\x7b\x7d"⟩]⟩

theorem fate_offline : offline.fate "ftp://h" = .failed "Stylesheet skipped, not readable: ftp://h" := rfl

theorem gather_strayLinked : gather offline strayLinked =
    .ok ⟨["ftp://h"], [⟨"inline", ".y", none⟩], ["Stylesheet skipped, not readable: ftp://h"], []⟩ := by cbv

theorem omits_strayLinked : Omits offline strayLinked offline unlinked where
  pageUrl := rfl
  links := .drop ⟨"ftp://h", _, rfl, fate_offline⟩ .nil
  sheets _ := .refl _ _ _
  styles := .keep (.refl _ _ _) .nil

theorem not_imports_offline (url url' : Text) : ¬ offline.Imports url url' := by
  rintro ⟨file, sheet, hread, -⟩
  have hload : ∀ l, offline.load url = .ok l → l.css? = none := by
    intro l hl
    simp only [Sources.load, Sources.fromSite, offline] at hl
    cases hu : Url.parse url with
    | error e =>
      rw [hu] at hl
      cases hl
    | ok u =>
      rw [hu] at hl
      dsimp only at hl
      split at hl
      · obtain rfl := Except.ok.inj hl
        rfl
      · obtain rfl := Except.ok.inj hl
        rfl
  rw [Sources.fate] at hread
  cases hl : offline.load url with
  | error e =>
    rw [hl] at hread
    cases hread
  | ok l =>
    rw [hl] at hread
    obtain ⟨outcome, fetched⟩ := l
    cases outcome with
    | css css => cases hload _ hl
    | unreadable => cases hread
    | unreachable => cases hread

end StylePrune.Sampling
