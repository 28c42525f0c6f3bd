import StylePrune.Proofs.Ledger.Seeding

/-!
A report that is merged twice. A ledger that grew from none on a site knows every selector of every sheet whose file
it has, and of a selector that it knows the second time says nothing new. So the second merge leaves the files in
their order and all statuses that cleaning the sheets can ask for.
-/

set_option autoImplicit false

namespace StylePrune

/-- A second round of the same reports leaves a status as the first one left it. -/
theorem Status.through_through (s : Text) (us : List (List Css.Use)) (v : Status) :
    through s us (through s us (some v)) = through s us (some v) := by
  cases h : through s us (some v) with
  | none =>
    have hs := isSome_through (s := s) us (o := some v) rfl
    simp [h] at hs
  | some v' =>
    cases v' with
    | used => exact through_used s us
    | unused =>
      cases v with
      | used => simp at h
      | unused => exact h

theorem Table.keys_insert {κ α : Type} [DecidableEq κ] {t : Table κ α} {k : κ} (h : (t.get? k).isSome) (v : α) :
    (t.insert k v).keys = t.keys := by
  obtain ⟨es, hn⟩ := t
  simp only [get?, Option.isSome_map, List.find?_isSome, decide_eq_true_eq] at h
  simp only [keys, insert]
  clear hn
  induction es with
  | nil => simp at h
  | cons e es ih =>
    by_cases he : e.1 = k
    · simp [put, he]
    · obtain ⟨x, hx, hk⟩ := h
      rcases List.mem_cons.1 hx with rfl | hx
      · exact absurd hk he
      · simp [put, he, ih ⟨x, hx, hk⟩]

namespace Ledger

variable {s : Site} {locked : Text → Bool} {d : Disk} {l : Ledger} {m m' n n' : Merge}
variable {es : List (Text × List Css.Use)} {r : Report} {file css : Text} {size : Nat} {sheet : Css.Sheet}

/-- Every selector of a sheet whose file the ledger has is in the ledger. -/
def Complete (s : Site) (locked : Text → Bool) (d : Disk) (l : Ledger) : Prop :=
  ∀ file st css size sheet, l.get? file = some st → Site.read s locked d file = .ok (css, size) →
    Css.Sheet.parse css = .ok sheet → ∀ a ∈ sheet.uses.map Prod.fst, (st.get? a).isSome

theorem complete_empty : Complete s locked d Table.empty := nofun

theorem Complete.opening (hc : Complete s locked d l) {k : Statuses × List Text}
    (hk : Ledger.opening s locked d l file = .ok k) (hr : Site.read s locked d file = .ok (css, size))
    (hp : Css.Sheet.parse css = .ok sheet) : ∀ a ∈ sheet.uses.map Prod.fst, (k.1.get? a).isSome := by
  intro a ha
  cases hl : l.get? file with
  | some st =>
    rw [opening_of_get? hl] at hk
    obtain rfl := Except.ok.inj hk
    exact hc file st css size sheet hl hr hp a ha
  | none =>
    rw [opening_of_new hl, firstStatuses_of_read hr hp] at hk
    obtain rfl := Except.ok.inj hk
    rw [get?_enterAll_empty, if_pos ha]
    rfl

theorem Complete.run (hc : Complete s locked d m.ledger) (h : m.run s locked d es = (m', none)) :
    Complete s locked d m'.ledger := by
  intro file st css size sheet hl hr hp a ha
  by_cases hf : reportsOn file es = []
  · rw [Merge.get?_run_of_nil h hf] at hl
    exact hc file st css size sheet hl hr hp a ha
  · obtain ⟨k, hk, hm⟩ := Merge.get?_run h hf
    obtain rfl := Option.some.inj (hm.symm.trans hl)
    rw [Statuses.get?_after]
    exact Status.isSome_through _ (hc.opening hk hr hp a ha)

theorem Complete.merge (hc : Complete s locked d l) (h : merge s locked d l r = (m, none)) :
    Complete s locked d m.ledger := hc.run (m := .start l) h

/-- A file that the ledger has keeps its place in it. -/
theorem Merge.keys_run (h : m.run s locked d es = (m', none))
    (hf : ∀ file, reportsOn file es ≠ [] → (m.ledger.get? file).isSome) : m'.ledger.keys = m.ledger.keys := by
  induction es generalizing m with
  | nil =>
    obtain ⟨rfl, -⟩ := Prod.mk.inj h
    rfl
  | cons e es ih =>
    obtain ⟨m₁, hs, hr⟩ := run_cons_eq_none h
    obtain ⟨g, k, hg, -, hm⟩ := step_eq_ok hs
    have hget : (m.ledger.get? g).isSome := hf g (by simp [reportsOn_cons_eq hg])
    have hkeys : m₁.ledger.keys = m.ledger.keys := by rw [hm, Table.keys_insert hget]
    rw [ih hr fun file hfile => ?_, hkeys]
    rw [hm, Table.get?_insert]
    split
    · rfl
    · rename_i hne
      exact hf file (by rwa [reportsOn_cons_ne hg (Ne.symm hne)])

/-- The files that a merge touches are those of the report, whatever the ledger. -/
theorem Merge.files_run (h : m.run s locked d es = (m', none)) (h' : n.run s locked d es = (n', none))
    (hmn : n.files = m.files) : n'.files = m'.files := by
  induction es generalizing m n with
  | nil =>
    obtain ⟨rfl, -⟩ := Prod.mk.inj h
    obtain ⟨rfl, -⟩ := Prod.mk.inj h'
    exact hmn
  | cons e es ih =>
    obtain ⟨m₁, hs, hr⟩ := run_cons_eq_none h
    obtain ⟨n₁, hs', hr'⟩ := run_cons_eq_none h'
    obtain ⟨g, -, hg, -, -, -, hm⟩ := step_files hs
    obtain ⟨g', -, hg', -, -, -, hn⟩ := step_files hs'
    obtain rfl := Except.ok.inj (hg'.symm.trans hg)
    exact ih hr hr' (by rw [hn, hm, hmn])

/-- A merge loses no file. -/
theorem isSome_get?_merge (h : merge s locked d l r = (m, none)) (hf : (l.get? file).isSome) :
    (m.ledger.get? file).isSome := by
  obtain ⟨st, hst⟩ := Option.isSome_iff_exists.1 hf
  rw [status?_run (m := .start l) h hst]
  rfl

/-- A report that is merged again touches the same files, adds none and leaves the status of each selector of a sheet
as it is. -/
theorem merge_again (hc : Complete s locked d l) (h : merge s locked d l r = (m, none))
    (h' : merge s locked d m.ledger r = (m', none)) : m'.files = m.files ∧ m'.ledger.keys = m.ledger.keys ∧
      ∀ file st st' css size sheet, m.ledger.get? file = some st → m'.ledger.get? file = some st' →
        Site.read s locked d file = .ok (css, size) → Css.Sheet.parse css = .ok sheet →
          ∀ a ∈ sheet.uses.map Prod.fst, st'.get? a = st.get? a := by
  refine ⟨Merge.files_run (m := .start l) (n := .start m.ledger) h h' rfl,
    Merge.keys_run (m := .start m.ledger) h' fun file hf => ?_, fun file st st' css size sheet hl hl' hr hp a ha => ?_⟩
  · obtain ⟨k, -, hm⟩ := Merge.get?_run (m := .start l) h hf
    rw [Merge.start, hm]
    rfl
  · by_cases hf : reportsOn file r.entries = []
    · rw [Merge.get?_run_of_nil (m := .start m.ledger) h' hf, Merge.start, hl] at hl'
      rw [Option.some.inj hl']
    · obtain ⟨k, hk, hm⟩ := Merge.get?_run (m := .start l) h hf
      obtain rfl := Option.some.inj (hm.symm.trans hl)
      have hm' := status?_run (m := .start m.ledger) h' hl
      obtain rfl := Option.some.inj (hm'.symm.trans hl')
      obtain ⟨v, hv⟩ := Option.isSome_iff_exists.1 (hc.opening (l := l) hk hr hp a ha)
      rw [Statuses.get?_after, Statuses.get?_after, hv, Status.through_through]

end Ledger
end StylePrune
