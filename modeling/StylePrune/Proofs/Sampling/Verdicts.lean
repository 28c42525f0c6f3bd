import Mathlib
import StylePrune.Proofs.Sampling.Report
import StylePrune.Sampling.Sampler

/-!
What scans make of a selector over a whole history. Two things are remembered: records, for as long as their
sighting is there, and used selectors, for good. Together they hold that a selector may not be deleted or was seen to
match, and nothing else.
-/

set_option autoImplicit false

namespace StylePrune.Sampling

/-- What a scan looks at: a document, and where its stylesheets come from at that time. -/
structure Visit where
  page : Html.Page
  sources : Sources

namespace Visit

/-- The selector stands in a stylesheet of the page, as the sighting says. -/
def Sees (v : Visit) (x : Sighting) : Prop := ∃ c, gather v.sources v.page = .ok c ∧ x ∈ c.found

def Declares (v : Visit) (selector : Text) : Prop := ∃ x, v.Sees x ∧ x.selector = selector

end Visit

/-- Some visit declares the selector, and its document matches it. -/
def SeenUsed (selects : Html.Page → Text → Bool) (vs : List Visit) (selector : Text) : Prop :=
  ∃ v ∈ vs, v.Declares selector ∧ selects v.page selector = true

/-- A selector that is used in the light of what was seen. -/
def Kept (seen : Text → Prop) (selector : Text) : Prop := Selector.isEligible selector = false ∨ seen selector

namespace Sampler

/-- A scan of documents that match selectors in any fixed way. -/
def visit (selects : Html.Page → Text → Bool) (s : Sampler) (v : Visit) : Except ScanError (Scan × Sampler) :=
  (gather v.sources v.page).map (s.step (selects v.page))

theorem visit_selects (s : Sampler) (v : Visit) : s.visit Html.Page.selects v = s.scan v.sources v.page := rfl

/-- A scan that fails leaves nothing behind. -/
def next (selects : Html.Page → Text → Bool) (s : Sampler) (v : Visit) : Sampler :=
  match s.visit selects v with
  | .ok r => r.2
  | .error _ => s

def after (selects : Html.Page → Text → Bool) (s : Sampler) (vs : List Visit) : Sampler := vs.foldl (next selects) s

end Sampler

/-- What is remembered of a sighting, or what is thought of it when there is nothing. -/
def recordFor (before : Table Sighting Record) (x : Sighting) : Record :=
  (before.get? x).getD (.fresh x (Selector.isEligible x.selector))

theorem get?_recordsOf (before : Table Sighting Record) (found : List Sighting) (x : Sighting) :
    (recordsOf before found).get? x = if x ∈ found then some (recordFor before x) else none := by
  rw [show recordsOf before found = Table.fill (recordFor before) found Table.empty from rfl, Table.get?_fill,
    Table.get?_empty, Option.none_or]

theorem mem_entries_recordsOf {before : Table Sighting Record} {found : List Sighting} {r : Record} :
    r ∈ (recordsOf before found).entries.map Prod.snd ↔ ∃ x ∈ found, recordFor before x = r := by
  simp [Table.mem_entries_iff, get?_recordsOf]

theorem testRecord_eq (isUsed : Text → Bool) (r : Record) : testRecord isUsed r =
    { r with verdict := if r.verdict = .used ∨ isUsed r.sighting.selector = true then .used else .unused } := by
  by_cases hv : r.verdict = .used
  · simp [testRecord, ← hv]
  · by_cases hm : isUsed r.sighting.selector = true
    · simp [testRecord, hv, hm, Record.asUsed]
    · simp [testRecord, hv, hm, Record.asUnused]

theorem sighting_testRecord (isUsed : Text → Bool) (r : Record) : (testRecord isUsed r).sighting = r.sighting := by
  rw [testRecord_eq]

theorem verdict_testRecord (isUsed : Text → Bool) (r : Record) :
    (testRecord isUsed r).verdict ≠ .unknown ∧
      ((testRecord isUsed r).verdict = .used ↔ r.verdict = .used ∨ isUsed r.sighting.selector = true) := by
  rw [testRecord_eq]
  split <;> simp [*]

theorem mem_newlyUsed {isUsed : Text → Bool} {rs : List Record} {a : Text} :
    a ∈ newlyUsed isUsed rs ↔
      ∃ r ∈ rs, r.verdict ≠ .used ∧ isUsed r.sighting.selector = true ∧ r.sighting.selector = a := by
  simp [newlyUsed, and_assoc]

/-- The selectors that count as used in a scan: those remembered and those that match. -/
def Sampler.counts (s : Sampler) (matched : Text → Bool) (selector : Text) : Bool :=
  s.used.contains selector || matched selector

theorem Sampler.get?_records_step (matched : Text → Bool) (c : Collection) (s : Sampler) (x : Sighting) :
    (s.step matched c).2.records.get? x =
      if x ∈ c.found then some (testRecord (s.counts matched) (recordFor s.records x)) else none := by
  change ((recordsOf s.records c.found).map fun _ => testRecord (s.counts matched)).get? x = _
  rw [Table.get?_map, get?_recordsOf]
  split <;> rfl

theorem Sampler.mem_records_step {matched : Text → Bool} {c : Collection} {s : Sampler} {r : Record} :
    r ∈ (s.step matched c).1.records ↔ ∃ x ∈ c.found, r = testRecord (s.counts matched) (recordFor s.records x) := by
  change r ∈ (s.step matched c).2.records.entries.map Prod.snd ↔ _
  simp only [List.mem_map, Prod.exists, exists_eq_right, Table.mem_entries_iff, Sampler.get?_records_step]
  simp [eq_comm]

theorem Sampler.mem_used_step {matched : Text → Bool} {c : Collection} {s : Sampler} {a : Text} :
    a ∈ (s.step matched c).2.used ↔ a ∈ s.used ∨ ∃ x ∈ c.found, (recordFor s.records x).verdict ≠ .used ∧
      s.counts matched (recordFor s.records x).sighting.selector = true ∧
      (recordFor s.records x).sighting.selector = a := by
  change a ∈ s.used ++ (newlyUsed (s.counts matched) ((recordsOf s.records c.found).entries.map Prod.snd)).filter _ ↔ _
  rw [List.mem_append, List.mem_filter, mem_newlyUsed]
  by_cases ha : a ∈ s.used
  · simp [ha]
  · have hnew : (!s.used.contains a) = true := by simpa using ha
    simp only [ha, hnew, and_true, false_or, mem_entries_recordsOf]
    constructor
    · rintro ⟨_, ⟨x, hx, rfl⟩, h⟩
      exact ⟨x, hx, h⟩
    · rintro ⟨x, hx, h⟩
      exact ⟨_, ⟨x, hx, rfl⟩, h⟩

/-- What a record may say of a selector of which so much was seen. -/
structure Recalls (seen : Text → Prop) (x : Sighting) (r : Record) : Prop where
  sighting : r.sighting = x
  used : r.verdict = .used → Kept seen x.selector
  ineligible : Selector.isEligible x.selector = false → r.verdict = .used

/-- The used selectors that a sampler has seen are those that it remembers. -/
structure Remembers (seen : Text → Prop) (s : Sampler) : Prop where
  used : ∀ a, a ∈ s.used ↔ Selector.isEligible a = true ∧ seen a
  records : ∀ x r, s.records.get? x = some r → Recalls seen x r

variable {seen : Text → Prop} {s : Sampler}

theorem recalls_fresh (seen : Text → Prop) (x : Sighting) :
    Recalls seen x (.fresh x (Selector.isEligible x.selector)) where
  sighting := rfl
  used h := .inl (by simpa [Record.fresh] using h)
  ineligible h := by simp [Record.fresh, h]

theorem Recalls.mono {seen' : Text → Prop} {x : Sighting} {r : Record} (hs : ∀ a, seen a → seen' a)
    (h : Recalls seen x r) : Recalls seen' x r where
  sighting := h.sighting
  used hv := (h.used hv).imp_right (hs _)
  ineligible := h.ineligible

theorem remembers_fresh : Remembers (fun _ => False) Sampler.fresh where
  used a := by simp [Sampler.fresh]
  records x r h := by cases h

theorem Remembers.recalls (h : Remembers seen s) (x : Sighting) : Recalls seen x (recordFor s.records x) := by
  cases hr : s.records.get? x with
  | none => simpa [recordFor, hr] using recalls_fresh seen x
  | some r => simpa [recordFor, hr] using h.records x r hr

/-- What was seen after a scan that collects `found`. -/
def seenAfter (seen : Text → Prop) (matched : Text → Bool) (found : List Sighting) (a : Text) : Prop :=
  seen a ∨ (∃ x ∈ found, x.selector = a) ∧ matched a = true

theorem Remembers.counts_iff (h : Remembers seen s) (matched : Text → Bool) (a : Text) :
    s.counts matched a = true ↔ (Selector.isEligible a = true ∧ seen a) ∨ matched a = true := by
  simp [Sampler.counts, h.used]

/-- A scan tells of every sighting whether its selector is kept. -/
theorem Remembers.used_iff_kept (h : Remembers seen s) (matched : Text → Bool) {found : List Sighting}
    {x : Sighting} (hx : x ∈ found) :
    (testRecord (s.counts matched) (recordFor s.records x)).verdict = .used ↔
      Kept (seenAfter seen matched found) x.selector := by
  have hr := h.recalls x
  rw [(verdict_testRecord _ _).2, hr.sighting, h.counts_iff]
  constructor
  · rintro (hv | ⟨-, hs⟩ | hm)
    · exact (hr.mono fun a => Or.inl).used hv
    · exact .inr (.inl hs)
    · exact .inr (.inr ⟨⟨x, hx, rfl⟩, hm⟩)
  · intro hk
    by_cases he : Selector.isEligible x.selector = true
    · rcases hk with hi | hs | ⟨-, hm⟩
      · simp [he] at hi
      · exact .inr (.inl ⟨he, hs⟩)
      · exact .inr (.inr hm)
    · exact .inl (hr.ineligible (by simpa using he))

/-- One scan adds to what is remembered what it has seen. -/
theorem Remembers.step (h : Remembers seen s) (matched : Text → Bool) (c : Collection) :
    Remembers (seenAfter seen matched c.found) (s.step matched c).2 where
  used a := by
    rw [Sampler.mem_used_step, h.used]
    constructor
    · rintro (⟨he, hs⟩ | ⟨x, hx, hv, hm, ha⟩)
      · exact ⟨he, .inl hs⟩
      · have hr := h.recalls x
        rw [hr.sighting] at hm ha
        subst ha
        have he : Selector.isEligible x.selector = true := by
          cases he : Selector.isEligible x.selector with
          | false => exact absurd (hr.ineligible he) hv
          | true => rfl
        exact ⟨he, ((h.counts_iff _ _).1 hm).imp And.right fun hm => ⟨⟨x, hx, rfl⟩, hm⟩⟩
    · rintro ⟨he, hs | ⟨⟨x, hx, rfl⟩, hm⟩⟩
      · exact .inl ⟨he, hs⟩
      · have hr := h.recalls x
        by_cases hv : (recordFor s.records x).verdict = .used
        · rcases hr.used hv with hi | hs
          · simp [he] at hi
          · exact .inl ⟨he, hs⟩
        · exact .inr ⟨x, hx, hv, (h.counts_iff _ _).2 (.inr (hr.sighting.symm ▸ hm)), by rw [hr.sighting]⟩
  records x r hr := by
    rw [Sampler.get?_records_step] at hr
    split at hr
    · rename_i hx
      obtain rfl := Option.some.inj hr
      have hv := h.used_iff_kept matched hx
      exact ⟨(sighting_testRecord _ _).trans (h.recalls x).sighting, hv.1, fun hi => hv.2 (.inl hi)⟩
    · cases hr

section History

variable {selects : Html.Page → Text → Bool} {vs : List Visit} {v : Visit}

theorem Sampler.visit_eq_ok {r : Scan × Sampler} (h : s.visit selects v = .ok r) :
    ∃ c, gather v.sources v.page = .ok c ∧ s.step (selects v.page) c = r := by
  unfold visit at h
  cases hc : gather v.sources v.page with
  | error e => rw [hc] at h; cases h
  | ok c =>
    rw [hc] at h
    exact ⟨c, rfl, Except.ok.inj h⟩

theorem Visit.sees_iff {c : Collection} (hc : gather v.sources v.page = .ok c) (x : Sighting) :
    v.Sees x ↔ x ∈ c.found := by simp [Sees, hc]

theorem seenUsed_append {ws : List Visit} {a : Text} :
    SeenUsed selects (vs ++ ws) a ↔ SeenUsed selects vs a ∨ SeenUsed selects ws a := by
  simp [SeenUsed, or_and_right, exists_or]

/-- A visit has seen what its scan collects and its document matches. -/
theorem seenAfter_eq {c : Collection} (hc : gather v.sources v.page = .ok c) :
    seenAfter (SeenUsed selects vs) (selects v.page) c.found = SeenUsed selects (vs ++ [v]) := by
  funext a
  have hv : SeenUsed selects [v] a ↔ (∃ x ∈ c.found, x.selector = a) ∧ selects v.page a = true := by
    simp [SeenUsed, Visit.Declares, Visit.sees_iff hc]
  rw [eq_iff_iff, seenUsed_append, hv, seenAfter]

theorem Remembers.next (h : Remembers (SeenUsed selects vs) s) (v : Visit) :
    Remembers (SeenUsed selects (vs ++ [v])) (s.next selects v) := by
  unfold Sampler.next Sampler.visit
  cases hc : gather v.sources v.page with
  | error e =>
    have hnone (a : Text) : ¬ SeenUsed selects [v] a := by
      simp [SeenUsed, Visit.Declares, Visit.Sees, hc]
    have heq : SeenUsed selects (vs ++ [v]) = SeenUsed selects vs := by
      funext a
      rw [eq_iff_iff, seenUsed_append, or_iff_left (hnone a)]
    rw [heq]
    exact h
  | ok c =>
    rw [← seenAfter_eq hc]
    exact h.step (selects v.page) c

theorem Remembers.after (h : Remembers (SeenUsed selects vs) s) (ws : List Visit) :
    Remembers (SeenUsed selects (vs ++ ws)) (s.after selects ws) := by
  induction ws generalizing vs s with
  | nil => rwa [List.append_nil]
  | cons w ws ih =>
    rw [List.append_cons]
    exact ih (h.next w)

theorem remembers_after (selects : Html.Page → Text → Bool) (vs : List Visit) :
    Remembers (SeenUsed selects vs) (Sampler.fresh.after selects vs) := by
  have hfresh : Remembers (SeenUsed selects []) Sampler.fresh := by
    have hnone : SeenUsed selects [] = fun _ => False := by
      funext a
      simp [SeenUsed]
    rw [hnone]
    exact remembers_fresh
  exact hfresh.after vs

theorem Kept.mono {a : Text} (ws : List Visit) (h : Kept (SeenUsed selects vs) a) :
    Kept (SeenUsed selects (vs ++ ws)) a := h.imp_right fun h => seenUsed_append.2 (.inl h)

end History

section Scanned

variable {selects : Html.Page → Text → Bool} {vs : List Visit} {v : Visit} {scan : Scan} {s' : Sampler}
  (h : (Sampler.fresh.after selects vs).visit selects v = .ok (scan, s'))

include h

/-- The records of a scan are the sightings of its page. -/
theorem exists_record_iff (x : Sighting) :
    (∃ r ∈ scan.records, r.sighting = x) ↔ v.Sees x := by
  obtain ⟨c, hc, hstep⟩ := Sampler.visit_eq_ok h
  obtain rfl : _ = scan := congrArg Prod.fst hstep
  have hs := remembers_after selects vs
  rw [Visit.sees_iff hc]
  constructor
  · rintro ⟨r, hr, rfl⟩
    obtain ⟨x, hx, rfl⟩ := Sampler.mem_records_step.1 hr
    rwa [sighting_testRecord, (hs.recalls x).sighting]
  · intro hx
    exact ⟨_, Sampler.mem_records_step.2 ⟨x, hx, rfl⟩, (sighting_testRecord _ _).trans (hs.recalls x).sighting⟩

/-- The verdict of a record after any history. -/
theorem verdict_of_mem {r : Record} (hr : r ∈ scan.records) :
    r.verdict ≠ .unknown ∧ (r.verdict = .used ↔ Kept (SeenUsed selects (vs ++ [v])) r.sighting.selector) := by
  obtain ⟨c, hc, hstep⟩ := Sampler.visit_eq_ok h
  obtain rfl : _ = scan := congrArg Prod.fst hstep
  have hs := remembers_after selects vs
  obtain ⟨x, hx, rfl⟩ := Sampler.mem_records_step.1 hr
  rw [sighting_testRecord, (hs.recalls x).sighting, ← seenAfter_eq hc]
  exact ⟨(verdict_testRecord _ _).1, hs.used_iff_kept _ hx⟩

theorem verdict_eq_unused_iff {r : Record} (hr : r ∈ scan.records) :
    r.verdict = .unused ↔ ¬ Kept (SeenUsed selects (vs ++ [v])) r.sighting.selector := by
  obtain ⟨hk, hu⟩ := verdict_of_mem h hr
  rw [← hu]
  cases hv : r.verdict <;> simp_all

/-- Records of one selector agree, whatever their files and media. -/
theorem verdict_congr {r q : Record} (hr : r ∈ scan.records) (hq : q ∈ scan.records)
    (hsel : q.sighting.selector = r.sighting.selector) : q.verdict = r.verdict := by
  obtain ⟨hqk, hqu⟩ := verdict_of_mem h hq
  obtain ⟨hrk, hru⟩ := verdict_of_mem h hr
  have hused : q.verdict = .used ↔ r.verdict = .used := by rw [hqu, hru, hsel]
  cases hv : r.verdict <;> cases hw : q.verdict <;> simp_all

end Scanned

/-- A record tells of its selector all that any scan up to its own has seen: the selector may not be deleted, or a
document matched it while a stylesheet declared it. No later report lists a selector that was used once. -/
theorem verdict_iff_history (selects : Html.Page → Text → Bool) (vs : List Visit) (v : Visit) {scan : Scan}
    {s' : Sampler} (h : (Sampler.fresh.after selects vs).visit selects v = .ok (scan, s')) :
    (∀ x, (∃ r ∈ scan.records, r.sighting = x) ↔ v.Sees x) ∧
    (∀ r ∈ scan.records,
      (r.verdict = .used ↔ Kept (SeenUsed selects (vs ++ [v])) r.sighting.selector) ∧
      (r.verdict = .unused ↔ ¬ Kept (SeenUsed selects (vs ++ [v])) r.sighting.selector)) ∧
    (∀ r ∈ scan.records, ∀ q ∈ scan.records, q.sighting.selector = r.sighting.selector → q.verdict = r.verdict) ∧
    ∀ r ∈ scan.records, r.verdict = .used → ∀ ws w later t,
      (Sampler.fresh.after selects (vs ++ v :: ws)).visit selects w = .ok (later, t) →
        ∀ e ∈ later.report.entries, ∀ u ∈ e.2, u.1 ≠ r.sighting.selector := by
  refine ⟨exists_record_iff h, fun r hr => ⟨(verdict_of_mem h hr).2, verdict_eq_unused_iff h hr⟩,
    fun r hr q hq => verdict_congr h hr hq, ?_⟩
  intro r hr hv ws w later t hw e he u hu hsel
  have hkept : Kept (SeenUsed selects (vs ++ v :: ws ++ [w])) u.1 := by
    rw [hsel, List.append_cons vs v ws, List.append_assoc]
    exact ((verdict_of_mem h hr).2.1 hv).mono (ws ++ [w])
  rw [← Report.usesOf_of_mem he] at hu
  obtain ⟨q, hq, -, hunused, rfl⟩ := (mem_usesOf_reportOf _ _ _).1 hu
  exact (verdict_eq_unused_iff hw hq).1 hunused hkept

def offline : Sources := ⟨none, none, ⟨Table.empty⟩, fun _ => none⟩

/-- A page with an element that its only rule matches. -/
def matching : Visit := ⟨⟨[⟨"style", [], ".y\x7b\x7d"⟩, ⟨"p", [("class", "y")], []⟩]⟩, offline⟩

/-- The page without the element and without the rule. -/
def emptied : Visit := ⟨⟨[]⟩, offline⟩

/-- The rule is back, beside one that nothing ever matched. -/
def returned : Visit := ⟨⟨[⟨"style", [], ".y\x7b\x7d.z\x7b\x7d"⟩]⟩, offline⟩

theorem gather_matching : gather matching.sources matching.page = .ok ⟨[], [⟨"inline", ".y", none⟩], [], []⟩ := by cbv

theorem gather_returned : gather returned.sources returned.page =
    .ok ⟨[], [⟨"inline", ".y", none⟩, ⟨"inline", ".z", none⟩], [], []⟩ := by cbv

/-- A rule that matched once is used when it comes back, and the other is not. -/
theorem verdict_iff_history_returned : ∃ scan s',
    (Sampler.fresh.after Html.Page.selects [matching, emptied]).visit Html.Page.selects returned = .ok (scan, s') ∧
      (∃ r ∈ scan.records, r.sighting = ⟨"inline", ".y", none⟩ ∧ r.verdict = .used) ∧
      ∃ r ∈ scan.records, r.sighting = ⟨"inline", ".z", none⟩ ∧ r.verdict = .unused := by
  obtain ⟨scan, s', h⟩ : ∃ scan s', (Sampler.fresh.after Html.Page.selects [matching, emptied]).visit
      Html.Page.selects returned = .ok (scan, s') := by
    rw [Sampler.visit, gather_returned]
    exact ⟨_, _, rfl⟩
  obtain ⟨hsees, hverdict, -, -⟩ := verdict_iff_history Html.Page.selects [matching, emptied] returned h
  refine ⟨scan, s', h, ?_, ?_⟩
  · obtain ⟨r, hr, hx⟩ := (hsees ⟨"inline", ".y", none⟩).2 ((Visit.sees_iff gather_returned _).2 (by decide))
    refine ⟨r, hr, hx, (hverdict r hr).1.2 (.inr ⟨matching, List.mem_cons_self, ?_, ?_⟩)⟩
    · exact ⟨_, (Visit.sees_iff gather_matching _).2 List.mem_cons_self, by rw [hx]⟩
    · rw [hx]
      cbv
  · obtain ⟨r, hr, hx⟩ := (hsees ⟨"inline", ".z", none⟩).2 ((Visit.sees_iff gather_returned _).2 (by decide))
    refine ⟨r, hr, hx, (hverdict r hr).2.2 ?_⟩
    have hnever : ∀ v ∈ [matching, emptied] ++ [returned], Html.Page.selects v.page ".z" = false := by
      simp only [List.cons_append, List.nil_append, List.forall_mem_cons]
      exact ⟨by cbv, by cbv, by cbv, List.forall_mem_nil _⟩
    rw [hx]
    rintro (hi | ⟨v, hv, -, hm⟩)
    · exact absurd hi (by decide)
    · exact absurd hm (by simp [hnever v hv])

end StylePrune.Sampling
