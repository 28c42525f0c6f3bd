import StylePrune.Proofs.Ledger.Order
import StylePrune.Proofs.Sampling.Collecting
import StylePrune.Proofs.Sampling.Verdicts

/-!
A scan and the ledger agree. The sampler and a merge each read a stylesheet of the site for themselves and meet only in
a report; what a new ledger then thinks of a selector is what the scan thought of it, unless another file's key in the
report turns into the same key and leaves the selector out.
-/

set_option autoImplicit false

namespace StylePrune.Sampling

/-- A report as it is handed over, or as it arrives in the body of a request. -/
def Scan.Sends (s : Scan) (r : Report) : Prop := r = s.report ∨ Report.ofJson s.report.toJson = .ok r

theorem Scan.Sends.eq {s : Scan} {r : Report} (h : s.Sends r) : r = s.report := h.elim id Report.eq_of_ofJson_toJson

section Scanned

variable {selects : Html.Page → Text → Bool} {vs : List Visit} {v : Visit} {scan : Scan} {s' : Sampler}
  (h : (Sampler.fresh.after selects vs).visit selects v = .ok (scan, s')) {r : Record} (hr : r ∈ scan.records)

include h hr

theorem declared_of_mem : r.sighting.Declared := by
  obtain ⟨c, hc, hx⟩ := (exists_record_iff h r.sighting).1 ⟨r, hr, rfl⟩
  exact declared_of_gather hc _ hx

/-- A scanned selector is in normal form, so that a report lists it as it stands. -/
theorem mem_reported_iff {e : Text × List Css.Use} (he : e ∈ scan.report.entries) :
    r.sighting.selector ∈ Ledger.reported e.2 ↔ ∃ u ∈ e.2, u.1 = r.sighting.selector := by
  have hnorm : ∀ u ∈ e.2, Selector.normalize u.1 = u.1 := by
    intro u hu
    rw [← Report.usesOf_of_mem he] at hu
    obtain ⟨q, hq, -, -, rfl⟩ := (mem_usesOf_reportOf _ _ _).1 hu
    exact (declared_of_mem h hq).normalize_selector.1
  rw [Ledger.mem_reported, and_iff_right (declared_of_mem h hr).normalize_selector.2]
  exact exists_congr fun u => and_congr_right fun hu => by rw [hnorm u hu]

theorem forall_mem_reported_iff (file : Text) :
    (∀ u ∈ Ledger.reportsOn file scan.report.entries, r.sighting.selector ∈ Ledger.reported u) ↔
      ∀ e ∈ scan.report.entries, SourceKey.ofReference e.1 = .ok file → ∃ u ∈ e.2, u.1 = r.sighting.selector :=
  Ledger.forall_mem_reportsOn.trans (forall₂_congr fun _ he => imp_congr_right fun _ => mem_reported_iff h hr he)

omit h in
theorem mem_entries_report : (r.sighting.file, scan.report.usesOf r.sighting.file) ∈ scan.report.entries :=
  Report.mem_entries_of_isSome ((isSome_get?_reportOf _ _).2 ⟨r, hr, rfl⟩)

theorem verdict_eq_unused_iff_listed :
    r.verdict = .unused ↔ ∃ u ∈ scan.report.usesOf r.sighting.file, u.1 = r.sighting.selector := by
  constructor
  · intro hv
    exact ⟨_, (mem_usesOf_reportOf _ _ _).2 ⟨r, hr, rfl, hv, rfl⟩, rfl⟩
  · rintro ⟨u, hu, hsel⟩
    obtain ⟨q, hq, -, hv, rfl⟩ := (mem_usesOf_reportOf _ _ _).1 hu
    rw [← verdict_congr h hr hq hsel, hv]

theorem isEligible_of_unused (hv : r.verdict = .unused) : Selector.isEligible r.sighting.selector = true := by
  cases he : Selector.isEligible r.sighting.selector with
  | false => exact absurd (.inl he) ((verdict_eq_unused_iff h hr).1 hv)
  | true => rfl

end Scanned

/-- What a new ledger makes of a scan's report. A sheet that the scan read from the site has all its selectors in it,
and a selector is unused there if the scan found it to be and every entry of the report that means the file lists it. -/
theorem status?_scanned (selects : Html.Page → Text → Bool) (vs : List Visit) (v : Visit) {scan : Scan} {s' : Sampler}
    {root site : Site} {locked : Text → Bool} {d : Disk} {report : Report} {m : Ledger.Merge} {r : Record}
    {sheet : Css.Sheet}
    (h : (Sampler.fresh.after selects vs).visit selects v = .ok (scan, s')) (hsent : scan.Sends report)
    (hroot : v.sources.site = some root)
    (hsame : ∀ file, Site.read site locked d file = Site.read root (fun _ => false) v.sources.disk file)
    (hm : Ledger.merge site locked d Table.empty report = (m, none)) (hr : r ∈ scan.records)
    (hread : v.sources.ReadsFromSite r.sighting.file sheet) (hsel : r.sighting.selector ∈ sheet.uses.map Prod.fst)
    (hkey : SourceKey.ofReference r.sighting.file = .ok r.sighting.file) :
    (∀ a ∈ sheet.uses.map Prod.fst, (m.ledger.status? r.sighting.file a).isSome) ∧
    (m.ledger.status? r.sighting.file r.sighting.selector = some .unused ↔ r.verdict = .unused ∧
      ∀ e ∈ report.entries, SourceKey.ofReference e.1 = .ok r.sighting.file → ∃ u ∈ e.2, u.1 = r.sighting.selector) ∧
    ((∀ e ∈ report.entries, SourceKey.ofReference e.1 = .ok r.sighting.file → e.1 = r.sighting.file) →
      (m.ledger.status? r.sighting.file r.sighting.selector = some .unused ↔ r.verdict = .unused)) := by
  obtain rfl := hsent.eq
  obtain ⟨css, size, hcss, hp⟩ := hread.exists_read hroot
  have hentry := mem_entries_report hr
  have hstatus {a : Text} (ha : a ∈ sheet.uses.map Prod.fst) :=
    Ledger.status?_merge_new hm hentry hkey ((hsame _).trans hcss) hp ha
  have hunused : m.ledger.status? r.sighting.file r.sighting.selector = some .unused ↔ r.verdict = .unused ∧
      ∀ e ∈ scan.report.entries, SourceKey.ofReference e.1 = .ok r.sighting.file →
        ∃ u ∈ e.2, u.1 = r.sighting.selector := by
    rw [hstatus hsel, Status.through_presumed_eq_unused_iff, forall_mem_reported_iff h hr]
    constructor
    · rintro ⟨-, hl⟩
      exact ⟨(verdict_eq_unused_iff_listed h hr).2 (hl _ hentry hkey), hl⟩
    · rintro ⟨hv, hl⟩
      exact ⟨isEligible_of_unused h hr hv, hl⟩
  refine ⟨fun a ha => ?_, hunused, fun halone => ?_⟩
  · rw [hstatus ha]
    exact Status.isSome_through _ rfl
  · rw [hunused, and_iff_left_iff_imp]
    intro hv e he hf
    obtain ⟨u, hu, hs⟩ := (verdict_eq_unused_iff_listed h hr).1 hv
    refine ⟨u, ?_, hs⟩
    rwa [← Report.usesOf_of_mem he, halone e he hf]

def xBytes : Bytes := [0x2E, 0x78, 0x7B, 0x7D]

def zBytes : Bytes := [0x2E, 0x7A, 0x7B, 0x7D]

/-- Two sheets of one site. The key of the second one, taken for a locator, is the key of the first one. -/
def clashing : Visit where
  page := ⟨[⟨"link", [("rel", "stylesheet"), ("href", "/a.css")], []⟩,
    ⟨"link", [("rel", "stylesheet"), ("href", "/http:a.css")], []⟩]⟩
  sources := {
    site := some Site.small
    pageUrl := none
    disk := ⟨Table.ofList [(["a.css"], .file xBytes 0), (["http:a.css"], .file zBytes 0)]⟩
    network := fun _ => none }

theorem linkedUrls_clashing : linkedUrls clashing.sources clashing.page = .ok ["/a.css", "/http:a.css"] := rfl

theorem resolve_clashing : clashing.sources.disk.resolve Site.small.root = .ok [] := by cbv

theorem read_clashing :
    Site.read Site.small (fun _ => false) clashing.sources.disk "a.css" = .ok (".x\x7b\x7d", 4) := by
  have hplace : clashing.sources.disk.resolve (Path.join (Disk.pathOf []) "a.css") = .ok [("a.css" : Text)] := by cbv
  have ho : clashing.sources.disk.open? (Disk.pathOf [("a.css" : Text)]) = .ok (xBytes, 0) := by cbv
  rw [Site.read_of_resolve (by decide) resolve_clashing hplace (by decide) ho (by cbv) rfl]
  cbv

theorem read_clashing_other :
    Site.read Site.small (fun _ => false) clashing.sources.disk "http:a.css" = .ok (".z\x7b\x7d", 4) := by
  have hplace : clashing.sources.disk.resolve (Path.join (Disk.pathOf []) "http:a.css") =
      .ok [("http:a.css" : Text)] := by cbv
  have ho : clashing.sources.disk.open? (Disk.pathOf [("http:a.css" : Text)]) = .ok (zBytes, 0) := by cbv
  rw [Site.read_of_resolve (by decide) resolve_clashing hplace (by decide) ho (by cbv) rfl]
  cbv

theorem key_clashing : SourceKey.ofReference "/a.css" = .ok "a.css" := rfl

theorem key_clashing_other : SourceKey.ofReference "/http:a.css" = .ok "http:a.css" := rfl

theorem fromSite_clashing : clashing.sources.fromSite "/a.css" = .ok (some ".x\x7b\x7d") := by
  have ho : sharesOrigin clashing.sources.pageUrl "/a.css" = .ok true := rfl
  exact Sources.fromSite_of_read (s := clashing.sources) rfl ho key_clashing read_clashing

theorem fromSite_clashing_other : clashing.sources.fromSite "/http:a.css" = .ok (some ".z\x7b\x7d") := by
  have ho : sharesOrigin clashing.sources.pageUrl "/http:a.css" = .ok true := rfl
  exact Sources.fromSite_of_read (s := clashing.sources) rfl ho key_clashing_other read_clashing_other

theorem parse_clashing : Css.Sheet.parse ".x\x7b\x7d" =
    .ok ⟨[.block ⟨[], some (".x\x7b\x7d" : Text), ".x", [], [(".x" : Text)]⟩], []⟩ := by cbv

theorem gather_clashing : gather clashing.sources clashing.page =
    .ok ⟨["/http:a.css", "/a.css"], [⟨"a.css", ".x", none⟩, ⟨"http:a.css", ".z", none⟩], [], []⟩ := by
  have hz : Css.Sheet.parse ".z\x7b\x7d" =
      .ok ⟨[.block ⟨[], some (".z\x7b\x7d" : Text), ".z", [], [(".z" : Text)]⟩], []⟩ := by cbv
  rw [gather, linkedUrls_clashing]
  simp only [gatherLinks, importDepth]
  rw [gatherFrom_of_fromSite (by decide) fromSite_clashing key_clashing parse_clashing rfl]
  simp only
  rw [gatherFrom_of_fromSite (by decide) fromSite_clashing_other key_clashing_other hz rfl]
  rfl

theorem exists_scan_clashing : ∃ scan s', Sampler.fresh.visit Html.Page.selects clashing = .ok (scan, s') ∧
    scan.records = [⟨⟨"a.css", ".x", none⟩, true, .unused⟩, ⟨⟨"http:a.css", ".z", none⟩, true, .unused⟩] := by
  rw [Sampler.visit, gather_clashing]
  exact ⟨_, _, rfl, by cbv⟩

theorem readsFromSite_clashing :
    ∃ sheet, clashing.sources.ReadsFromSite "a.css" sheet ∧ sheet.uses = [((".x" : Text), none)] :=
  ⟨_, ⟨"/a.css", _, key_clashing, fromSite_clashing, parse_clashing⟩, rfl⟩

theorem exists_merge_clashing {report : Report}
    (h : report.entries = [(("a.css" : Text), [((".x" : Text), none)]), ("http:a.css", [(".z", none)])]) :
    ∃ m, Ledger.merge Site.small (fun _ => false) clashing.sources.disk Table.empty report = (m, none) := by
  have hopen : ∃ k, Ledger.opening Site.small (fun _ => false) clashing.sources.disk Table.empty "a.css" = .ok k :=
    ⟨_, (Ledger.opening_of_new rfl).trans (Ledger.firstStatuses_of_read read_clashing parse_clashing)⟩
  refine Ledger.Merge.exists_run_iff.2 ?_
  rw [h]
  simp only [Ledger.Opens, List.forall_mem_cons, List.not_mem_nil, false_implies, implies_true, and_true]
  exact ⟨⟨"a.css", rfl, hopen⟩, "a.css", rfl, hopen⟩

theorem report_clashing {scan : Scan}
    (h : scan.records = [⟨⟨"a.css", ".x", none⟩, true, .unused⟩, ⟨⟨"http:a.css", ".z", none⟩, true, .unused⟩]) :
    scan.report.entries = [(("a.css" : Text), [((".x" : Text), none)]), ("http:a.css", [(".z", none)])] := by
  rw [Scan.report, h]
  rfl

/-- The scan finds the rule unused; to the ledger it is used, because the other sheet's entry leaves it out. -/
theorem used_clashing : ∃ scan s' m r sheet,
    Sampler.fresh.visit Html.Page.selects clashing = .ok (scan, s') ∧
      Ledger.merge Site.small (fun _ => false) clashing.sources.disk Table.empty scan.report = (m, none) ∧
      r ∈ scan.records ∧ clashing.sources.ReadsFromSite r.sighting.file sheet ∧
      r.sighting.selector ∈ sheet.uses.map Prod.fst ∧ r.sighting.file ≠ SourceKey.inline ∧
      SourceKey.ofReference r.sighting.file = .ok r.sighting.file ∧ r.verdict = .unused ∧
      m.ledger.status? r.sighting.file r.sighting.selector = some .used := by
  obtain ⟨scan, s', hscan, hrecords⟩ := exists_scan_clashing
  obtain ⟨sheet, hsheet, huses⟩ := readsFromSite_clashing
  have hes := report_clashing hrecords
  obtain ⟨m, hm⟩ := exists_merge_clashing hes
  refine ⟨scan, s', m, ⟨⟨"a.css", ".x", none⟩, true, .unused⟩, sheet, hscan, hm, ?_, hsheet, ?_, ?_, rfl, rfl, ?_⟩
  · simp [hrecords]
  · simp [huses]
  · decide
  · have he : (("a.css" : Text), [((".x" : Text), (none : Option Text))]) ∈ scan.report.entries := by simp [hes]
    have hx : (".x" : Text) ∈ [((".x" : Text), (none : Option Text))].map Prod.fst := List.mem_cons_self
    rw [Ledger.status?_merge_new hm he rfl read_clashing parse_clashing hx, hes]
    rfl

/-- Every selector of the first sheet is in the ledger, and its rule is not unused there. -/
theorem status?_scanned_clashing : ∃ scan s' m,
    Sampler.fresh.visit Html.Page.selects clashing = .ok (scan, s') ∧
      Ledger.merge Site.small (fun _ => false) clashing.sources.disk Table.empty scan.report = (m, none) ∧
      (m.ledger.status? "a.css" ".x").isSome ∧ m.ledger.status? "a.css" ".x" ≠ some .unused := by
  obtain ⟨scan, s', hscan, hrecords⟩ := exists_scan_clashing
  obtain ⟨sheet, hsheet, huses⟩ := readsFromSite_clashing
  have hes := report_clashing hrecords
  obtain ⟨m, hm⟩ := exists_merge_clashing hes
  have hr : (⟨⟨"a.css", ".x", none⟩, true, .unused⟩ : Record) ∈ scan.records := by simp [hrecords]
  obtain ⟨hentries, hunused, -⟩ := status?_scanned Html.Page.selects [] clashing hscan (.inl rfl) rfl (fun _ => rfl)
    hm hr hsheet (by simp [huses]) rfl
  refine ⟨scan, s', m, hscan, hm, hentries ".x" (by simp [huses]), fun hst => ?_⟩
  obtain ⟨u, hu, hsel⟩ := (hunused.1 hst).2 ("http:a.css", [(".z", none)]) (by simp [hes]) rfl
  obtain rfl := List.mem_singleton.1 hu
  exact absurd hsel (by decide)

end StylePrune.Sampling
