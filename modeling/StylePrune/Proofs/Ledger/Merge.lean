import StylePrune.Proofs.Ledger.Evidence

/-!
A merge seen from one file: the file's entry is opened once, from the ledger or from its stylesheet,
and then takes the reports on it in order. Other files are left alone.
-/

set_option autoImplicit false

namespace StylePrune.Ledger

variable {s : Site} {locked : Text → Bool} {d : Disk}

/-- The statuses with which a merge opens a file. -/
def opening (s : Site) (locked : Text → Bool) (d : Disk) (l : Ledger) (file : Text) :
    Except MergeError (Statuses × List Text) :=
  (l.get? file).elim (firstStatuses s locked d file) fun st => .ok (st, [])

theorem opening_of_get? {l : Ledger} {file : Text} {st : Statuses} (h : l.get? file = some st) :
    opening s locked d l file = .ok (st, []) := by simp [opening, h]

theorem opening_of_new {l : Ledger} {file : Text} (h : l.get? file = none) :
    opening s locked d l file = firstStatuses s locked d file := by simp [opening, h]

theorem Merge.step_eq_ok {m m' : Merge} {reference : Text} {uses : List Css.Use}
    (h : m.step s locked d reference uses = .ok m') :
    ∃ file k, SourceKey.ofReference reference = .ok file ∧ opening s locked d m.ledger file = .ok k ∧
      m'.ledger = m.ledger.insert file (k.1.witness (reported uses)) := by
  unfold Merge.step at h
  split at h
  · cases h
  · rename_i file hf
    split at h
    · cases h
    · rename_i k hk
      obtain rfl := Except.ok.inj h
      exact ⟨file, k, hf, hk, rfl⟩

theorem Merge.run_cons_eq_none {m m' : Merge} {e : Text × List Css.Use} {es : List (Text × List Css.Use)}
    (h : m.run s locked d (e :: es) = (m', none)) :
    ∃ m₁, m.step s locked d e.1 e.2 = .ok m₁ ∧ m₁.run s locked d es = (m', none) := by
  simp only [Merge.run] at h
  cases hs : m.step s locked d e.1 e.2 with
  | error x => simp [hs] at h
  | ok m₁ => exact ⟨m₁, rfl, by simpa [hs] using h⟩

/-- A file that no report names keeps its entry. -/
theorem Merge.get?_run_of_nil {m m' : Merge} {es : List (Text × List Css.Use)} {file : Text}
    (h : m.run s locked d es = (m', none)) (hf : reportsOn file es = []) :
    m'.ledger.get? file = m.ledger.get? file := by
  induction es generalizing m with
  | nil =>
    obtain ⟨rfl, -⟩ := Prod.mk.inj h
    rfl
  | cons e es ih =>
    obtain ⟨m₁, hs, hr⟩ := Merge.run_cons_eq_none h
    obtain ⟨g, k, hg, -, hm⟩ := Merge.step_eq_ok hs
    by_cases hgf : g = file
    · simp [reportsOn_cons_eq (hgf ▸ hg)] at hf
    · rw [reportsOn_cons_ne hg hgf] at hf
      rw [ih hr hf, hm, Table.get?_insert, if_neg (Ne.symm hgf)]

/-- A file that reports name is opened and takes them in order. -/
theorem Merge.get?_run {m m' : Merge} {es : List (Text × List Css.Use)} {file : Text}
    (h : m.run s locked d es = (m', none)) (hf : reportsOn file es ≠ []) :
    ∃ k, opening s locked d m.ledger file = .ok k ∧
      m'.ledger.get? file = some (k.1.after (reportsOn file es)) := by
  induction es generalizing m with
  | nil => exact absurd rfl hf
  | cons e es ih =>
    obtain ⟨m₁, hs, hr⟩ := Merge.run_cons_eq_none h
    obtain ⟨g, k, hg, hk, hm⟩ := Merge.step_eq_ok hs
    by_cases hgf : g = file
    · subst hgf
      have hget : m₁.ledger.get? g = some (k.1.witness (reported e.2)) := by
        rw [hm, Table.get?_insert, if_pos rfl]
      refine ⟨k, hk, ?_⟩
      rw [reportsOn_cons_eq hg]
      by_cases hes : reportsOn g es = []
      · rw [Merge.get?_run_of_nil hr hes, hget, hes]
        rfl
      · obtain ⟨k', hk', hm'⟩ := ih hr hes
        rw [opening_of_get? hget] at hk'
        obtain rfl := Except.ok.inj hk'
        exact hm'
    · have hget : m₁.ledger.get? file = m.ledger.get? file := by
        rw [hm, Table.get?_insert, if_neg (Ne.symm hgf)]
      rw [reportsOn_cons_ne hg hgf] at hf ⊢
      obtain ⟨k', hk', hm'⟩ := ih hr hf
      refine ⟨k', ?_, hm'⟩
      rwa [opening, hget] at hk'

/-- A merge asks of a site only how the files of its entries are read. -/
theorem Merge.run_of_read {s' : Site} {d' : Disk} {es : List (Text × List Css.Use)}
    (h : ∀ e ∈ es, ∀ file, SourceKey.ofReference e.1 = .ok file → file ≠ SourceKey.inline →
      Site.read s' locked d' file = Site.read s locked d file) (m : Merge) :
    m.run s' locked d' es = m.run s locked d es := by
  induction es generalizing m with
  | nil => rfl
  | cons e es ih =>
    obtain ⟨he, hes⟩ := List.forall_mem_cons.1 h
    have hstep : m.step s' locked d' e.1 e.2 = m.step s locked d e.1 e.2 := by
      unfold Merge.step
      cases hf : SourceKey.ofReference e.1 with
      | error x => rfl
      | ok file =>
        have hfirst : firstStatuses s' locked d' file = firstStatuses s locked d file := by
          by_cases hi : file = SourceKey.inline
          · rw [firstStatuses, firstStatuses, if_pos hi, if_pos hi]
          · rw [firstStatuses, firstStatuses, he file hf hi]
        simp only [hfirst]
    rw [Merge.run, Merge.run, hstep]
    cases m.step s locked d e.1 e.2 with
    | error x => rfl
    | ok m => exact ih hes m

/-- Of a sheet that can be read every selector is entered as presumed. -/
theorem firstStatuses_of_read {file css : Text} {size : Nat} {sheet : Css.Sheet}
    (hr : Site.read s locked d file = .ok (css, size)) (hp : Css.Sheet.parse css = .ok sheet) :
    firstStatuses s locked d file =
      .ok (Statuses.enterAll Table.empty (sheet.uses.map Prod.fst), []) := by
  have hi : file ≠ SourceKey.inline := by
    rintro rfl
    simp [Site.read, Site.locate] at hr
  simp [firstStatuses, hi, hr, hp]

theorem get?_enterAll_empty (ss : List Text) (a : Text) :
    (Statuses.enterAll Table.empty ss).get? a = if a ∈ ss then some (.presumed a) else none := by
  rw [Statuses.get?_enterAll, Table.get?_empty, Option.none_or]

end StylePrune.Ledger
