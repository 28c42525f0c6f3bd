import StylePrune.Proofs.Disk.Links
import StylePrune.Proofs.Ledger.Order
import StylePrune.Proofs.Naming

/-!
Files that are new to the ledger. Of one that cannot be read or is no stylesheet nothing is entered and one line
says so; a merge breaks off only at a reference without a key, at a name that no file can have and at a number
that is too long.
-/

set_option autoImplicit false

namespace StylePrune

variable {s : Site} {locked : Text → Bool} {d : Disk} {l : Ledger} {file : Text}

/-- A stylesheet that can be looked for, and in which, if it is read, no number is too long. -/
structure Site.Legible (s : Site) (locked : Text → Bool) (d : Disk) (file : Text) : Prop where
  named : ∀ b, locate s d file ≠ .error (.badName b)
  short : ∀ css size, read s locked d file = .ok (css, size) → ∀ t, Css.Sheet.parse css ≠ .error (.tooLong t)

theorem Site.read_eq_badName_iff {b : Disk.BadName} :
    read s locked d file = .error (.badName b) ↔ locate s d file = .error (.badName b) := by
  unfold read
  cases locate s d file with
  | error e => simp
  | ok place =>
    simp only [reduceCtorEq, iff_false]
    split
    · simp
    · split
      · simp
      · split
        · simp
        · simp

namespace Ledger

/-- The line for a file of which nothing is learned. -/
def fault? (s : Site) (locked : Text → Bool) (d : Disk) (file : Text) : Option Text :=
  if file = SourceKey.inline then none
  else match Site.read s locked d file with
  | .error (.badName _) => none
  | .error (.unavailable u) => some (unreadable file (u.message file))
  | .ok r => match Css.Sheet.parse r.1 with
    | .error (.illFormed e) => some (unreadable file ("CSS parse error: " ++ e.message))
    | .error (.tooLong _) | .ok _ => none

theorem exists_firstStatuses_iff :
    (∃ k, firstStatuses s locked d file = .ok k) ↔ s.Legible locked d file := by
  constructor
  · rintro ⟨k, h⟩
    refine ⟨fun b hb => ?_, fun css size hr t hp => ?_⟩
    · have hi : file ≠ SourceKey.inline := by
        rintro rfl
        simp [Site.locate_inline] at hb
      have hr : Site.read s locked d file = .error (.badName b) := Site.read_eq_badName_iff.2 hb
      simp [firstStatuses, hi, hr] at h
    · obtain ⟨place, -, -, hl, -⟩ := Site.read_eq_ok hr
      have hi : file ≠ SourceKey.inline := (Site.locate_eq_ok hl).1
      simp [firstStatuses, hi, hr, hp] at h
  · intro h
    unfold firstStatuses
    split
    · exact ⟨_, rfl⟩
    · split
      · rename_i b hb
        exact absurd (Site.read_eq_badName_iff.1 hb) (h.named b)
      · exact ⟨_, rfl⟩
      · rename_i r hr
        split
        · rename_i t hp
          exact absurd hp (h.short r.1 r.2 hr t)
        · exact ⟨_, rfl⟩
        · exact ⟨_, rfl⟩

theorem snd_firstStatuses {k : Statuses × List Text} (h : firstStatuses s locked d file = .ok k) :
    k.2 = (fault? s locked d file).toList := by
  by_cases hi : file = SourceKey.inline
  · obtain rfl : (Table.empty, []) = k := by simpa [firstStatuses, hi] using h
    simp [fault?, hi]
  cases hr : Site.read s locked d file with
  | error e =>
    cases e with
    | badName b => simp [firstStatuses, hi, hr] at h
    | unavailable u =>
      obtain rfl : (Table.empty, [unreadable file (u.message file)]) = k := by simpa [firstStatuses, hi, hr] using h
      simp [fault?, hi, hr]
  | ok r =>
    cases hp : Css.Sheet.parse r.1 with
    | error e =>
      cases e with
      | tooLong t => simp [firstStatuses, hi, hr, hp] at h
      | illFormed e =>
        obtain rfl : (Table.empty, [unreadable file ("CSS parse error: " ++ e.message)]) = k := by
          simpa [firstStatuses, hi, hr, hp] using h
        simp [fault?, hi, hr, hp]
    | ok sheet =>
      simp only [firstStatuses, if_neg hi, hr, hp, Except.ok.injEq] at h
      simp [fault?, hi, hr, hp, ← h]

theorem exists_opening_iff :
    (∃ k, opening s locked d l file = .ok k) ↔ (l.get? file = none → s.Legible locked d file) := by
  cases hl : l.get? file with
  | some st => exact iff_of_true ⟨_, opening_of_get? hl⟩ nofun
  | none => simp only [opening_of_new hl, exists_firstStatuses_iff, true_implies]

/-- What the files and the lines of a merge are that began with the ledger `l`. -/
structure Merge.Account (s : Site) (locked : Text → Bool) (d : Disk) (l : Ledger) (m : Merge) : Prop where
  nodup : m.files.Nodup
  known : ∀ file ∈ m.files, (m.ledger.get? file).isSome
  others : ∀ file ∉ m.files, m.ledger.get? file = l.get? file
  errors : m.errors = (m.files.filter fun file => (l.get? file).isNone).filterMap (fault? s locked d)

namespace Merge

variable {m m' : Merge}

theorem account_start (s : Site) (locked : Text → Bool) (d : Disk) (l : Ledger) :
    Account s locked d l (.start l) := ⟨List.nodup_nil, List.forall_mem_nil _, fun _ _ => rfl, rfl⟩

theorem step_files {reference : Text} {uses : List Css.Use} (h : m.step s locked d reference uses = .ok m') :
    ∃ file k, SourceKey.ofReference reference = .ok file ∧ opening s locked d m.ledger file = .ok k ∧
      m'.ledger = m.ledger.insert file (k.1.witness (reported uses)) ∧ m'.errors = m.errors ++ k.2 ∧
      m'.files = if file ∈ m.files then m.files else m.files ++ [file] := by
  obtain ⟨file, k, hf, hk, -⟩ := step_eq_ok h
  have hk' := hk
  rw [opening] at hk'
  simp only [Merge.step, hf, hk', Except.ok.injEq] at h
  subst h
  exact ⟨file, k, hf, hk, rfl, rfl, rfl⟩

theorem Account.step (h : Account s locked d l m) {reference : Text} {uses : List Css.Use}
    (hs : m.step s locked d reference uses = .ok m') : Account s locked d l m' := by
  obtain ⟨file, k, -, hk, hledger, herrors, hfiles⟩ := step_files hs
  have hget (a : Text) : m'.ledger.get? a =
      if a = file then some (k.1.witness (reported uses)) else m.ledger.get? a := by
    rw [hledger, Table.get?_insert]
  have hknown : ∀ a, a ∈ m.files ∨ a = file → (m'.ledger.get? a).isSome := by
    intro a ha
    rw [hget]
    split
    · rfl
    · rename_i hne
      exact h.known a (ha.resolve_right hne)
  have hothers : ∀ a, a ∉ m.files → a ≠ file → m'.ledger.get? a = l.get? a := by
    intro a ha hne
    rw [hget, if_neg hne, h.others a ha]
  by_cases hm : file ∈ m.files
  · obtain ⟨st, hst⟩ := Option.isSome_iff_exists.1 (h.known file hm)
    rw [opening_of_get? hst] at hk
    obtain rfl := Except.ok.inj hk
    rw [if_pos hm] at hfiles
    refine ⟨hfiles ▸ h.nodup, ?_, ?_, ?_⟩
    · exact fun a ha => hknown a (.inl (hfiles ▸ ha))
    · intro a ha
      rw [hfiles] at ha
      exact hothers a ha fun he => ha (he ▸ hm)
    · rw [herrors, hfiles, List.append_nil, h.errors]
  · rw [if_neg hm] at hfiles
    refine ⟨?_, ?_, ?_, ?_⟩
    · rw [hfiles]
      exact List.nodup_append.2 ⟨h.nodup, List.nodup_singleton file, fun a ha b hb he =>
        hm (List.mem_singleton.1 hb ▸ he ▸ ha)⟩
    · intro a ha
      rw [hfiles, List.mem_append, List.mem_singleton] at ha
      exact hknown a ha
    · intro a ha
      rw [hfiles, List.mem_append, List.mem_singleton, not_or] at ha
      exact hothers a ha.1 ha.2
    · rw [herrors, hfiles, List.filter_append, List.filterMap_append, ← h.errors]
      congr 1
      rw [opening, h.others file hm] at hk
      cases hl : l.get? file with
      | some st =>
        rw [hl] at hk
        obtain rfl := Except.ok.inj hk
        simp [hl]
      | none =>
        rw [hl] at hk
        rw [snd_firstStatuses hk]
        cases hx : fault? s locked d file with
        | none => simp [hl, hx]
        | some line => simp [hl, hx]

theorem account_run {es : List (Text × List Css.Use)} (h : Account s locked d l m)
    (hr : m.run s locked d es = (m', none)) :
    Account s locked d l m' ∧ ∀ file, file ∈ m'.files ↔ file ∈ m.files ∨ reportsOn file es ≠ [] := by
  induction es generalizing m with
  | nil =>
    obtain ⟨rfl, -⟩ := Prod.mk.inj hr
    exact ⟨h, fun file => by simp [reportsOn]⟩
  | cons e es ih =>
    obtain ⟨m₁, hs, hr⟩ := run_cons_eq_none hr
    obtain ⟨ha, hfiles⟩ := ih (h.step hs) hr
    obtain ⟨g, k, hg, -, -, -, hm⟩ := step_files hs
    have hmem (file : Text) : file ∈ m₁.files ↔ file ∈ m.files ∨ file = g := by
      rw [hm]
      split
      · rename_i hg
        exact ⟨.inl, fun h => h.elim id fun h => h ▸ hg⟩
      · rw [List.mem_append, List.mem_singleton]
    refine ⟨ha, fun file => ?_⟩
    rw [hfiles, hmem, or_assoc]
    refine or_congr_right ?_
    by_cases hgf : g = file
    · simp [reportsOn_cons_eq (hgf ▸ hg), hgf]
    · rw [reportsOn_cons_ne hg hgf]
      exact ⟨fun h => h.resolve_left (Ne.symm hgf), .inr⟩

end Merge

end Ledger
end StylePrune
