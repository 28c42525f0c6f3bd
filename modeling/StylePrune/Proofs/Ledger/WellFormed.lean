import StylePrune.Proofs.Ledger.Order

/-!
What every ledger that comes of reports is like. Its files have the keys of references, its selectors are in normal form,
and only those that may be deleted are held to be unused.
-/

set_option autoImplicit false

namespace StylePrune

/-- The selectors of one file. -/
structure Statuses.WellFormed (st : Statuses) : Prop where
  normal : ∀ selector, (st.get? selector).isSome → selector ≠ [] ∧ Selector.normalize selector = selector
  eligible : ∀ selector, st.get? selector = some .unused → Selector.isEligible selector = true

structure Ledger.WellFormed (l : Ledger) : Prop where
  key : ∀ file, (l.get? file).isSome → ∃ reference, SourceKey.ofReference reference = .ok file
  entry : ∀ file st, l.get? file = some st → st.WellFormed

namespace Statuses

theorem wellFormed_empty : WellFormed Table.empty where
  normal selector h := by simp at h
  eligible selector h := by simp at h

/-- A file is new: its selectors stand there as they are presumed to be. -/
theorem wellFormed_enterAll {selectors : List Text} (h : ∀ s ∈ selectors, s ≠ [] ∧ Selector.normalize s = s) :
    WellFormed (enterAll Table.empty selectors) := by
  constructor
  · intro s hs
    rw [Ledger.get?_enterAll_empty] at hs
    by_cases hm : s ∈ selectors
    · exact h s hm
    · simp [hm] at hs
  · intro s hs
    rw [Ledger.get?_enterAll_empty] at hs
    by_cases hm : s ∈ selectors
    · exact (Status.presumed_eq_unused_iff s).1 (by simpa [hm] using hs)
    · simp [hm] at hs

/-- A report adds selectors in normal form, and what it lists as unused is so only if it may be deleted. -/
theorem WellFormed.witness {st : Statuses} (h : st.WellFormed) (uses : List Css.Use) :
    (st.witness (Ledger.reported uses)).WellFormed := by
  constructor
  · intro s hs
    rw [get?_witness] at hs
    by_cases hm : s ∈ Ledger.reported uses
    · obtain ⟨hn, u, -, rfl⟩ := Ledger.mem_reported.1 hm
      exact ⟨hn, Selector.normalize_normalize _⟩
    · refine h.normal s ?_
      cases hg : st.get? s with
      | none => simp [hm, hg, Status.next] at hs
      | some v => rfl
  · intro s hs
    rw [get?_witness] at hs
    cases hg : st.get? s with
    | none =>
      by_cases hm : s ∈ Ledger.reported uses
      · exact (Status.presumed_eq_unused_iff s).1 (by simpa [hm, hg, Status.next] using hs)
      · simp [hm, hg, Status.next] at hs
    | some v =>
      cases v with
      | used => simp [hg, Status.next] at hs
      | unused => exact h.eligible s hg

end Statuses

namespace Ledger

variable {s : Site} {locked : Text → Bool} {d : Disk} {l : Ledger} {m m' : Merge}

theorem wellFormed_empty : WellFormed Table.empty where
  key file h := by simp at h
  entry file st h := by simp at h

/-- A selector that is held to be unused is none that is always kept. -/
theorem WellFormed.unused (h : l.WellFormed) {file selector : Text} (hs : l.status? file selector = some .unused) :
    Selector.isEligible selector = true ∧ Selector.isCritical selector = false ∧
      Selector.isAlwaysKept selector = false := by
  obtain ⟨st, hf, hst⟩ := Option.bind_eq_some_iff.1 hs
  have hentry := h.entry file st hf
  have he := hentry.eligible selector hst
  obtain ⟨-, hcritical, hkept, -⟩ := (Selector.isEligible_iff selector).1 he
  rw [(hentry.normal selector (by simp [hst])).2] at hkept
  exact ⟨he, hcritical, hkept⟩

/-- However a file is opened its selectors are well formed. -/
theorem WellFormed.opening (h : l.WellFormed) {file : Text} {k : Statuses × List Text}
    (hk : opening s locked d l file = .ok k) : k.1.WellFormed := by
  cases hg : l.get? file with
  | some st =>
    rw [opening_of_get? hg] at hk
    obtain rfl := Except.ok.inj hk
    exact h.entry file st hg
  | none =>
    rw [opening_of_new hg] at hk
    rcases firstStatuses_eq_ok hk with ⟨hempty, -⟩ | ⟨css, size, sheet, -, hp, hsheet⟩
    · rw [hempty]
      exact Statuses.wellFormed_empty
    · rw [hsheet]
      refine Statuses.wellFormed_enterAll fun a ha => ?_
      rw [Css.Sheet.map_fst_uses, List.mem_flatMap] at ha
      obtain ⟨b, hb, ha⟩ := ha
      obtain ⟨hnormal, hn⟩ := Css.Sheet.normalize_selector hp hb ha
      exact ⟨hn, hnormal⟩

theorem WellFormed.insert (h : l.WellFormed) {reference file : Text} (hf : SourceKey.ofReference reference = .ok file)
    {st : Statuses} (hst : st.WellFormed) : WellFormed (l.insert file st) := by
  constructor
  · intro g hg
    rw [Table.get?_insert] at hg
    by_cases hgf : g = file
    · exact ⟨reference, hgf ▸ hf⟩
    · exact h.key g (by simpa [hgf] using hg)
  · intro g st' hg
    rw [Table.get?_insert] at hg
    by_cases hgf : g = file
    · simp only [hgf, if_true, Option.some.injEq] at hg
      exact hg ▸ hst
    · exact h.entry g st' (by simpa [hgf] using hg)

theorem WellFormed.step (h : m.ledger.WellFormed) {reference : Text} {uses : List Css.Use}
    (hs : m.step s locked d reference uses = .ok m') : m'.ledger.WellFormed := by
  obtain ⟨file, k, hf, hk, hm⟩ := Merge.step_eq_ok hs
  rw [hm]
  exact h.insert hf ((h.opening hk).witness uses)

theorem WellFormed.run {es : List (Text × List Css.Use)} (h : m.ledger.WellFormed)
    (hr : m.run s locked d es = (m', none)) : m'.ledger.WellFormed := by
  induction es generalizing m with
  | nil =>
    obtain ⟨rfl, -⟩ := Prod.mk.inj hr
    exact h
  | cons e es ih =>
    obtain ⟨m₁, hs, hr⟩ := Merge.run_cons_eq_none hr
    exact ih (h.step hs) hr

/-- Merging keeps a ledger well formed, whatever is on the site and in the report. -/
theorem WellFormed.merge (h : l.WellFormed) {r : Report} (hm : merge s locked d l r = (m, none)) :
    m.ledger.WellFormed := WellFormed.run (m := Merge.start l) h hm

end Ledger
end StylePrune
