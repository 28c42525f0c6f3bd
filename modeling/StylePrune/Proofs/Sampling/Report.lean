import StylePrune.Proofs.Table
import StylePrune.Sampling.Record

/-!
What a report lists: of every file that has a record the unused selectors. It arrives as it was sent.
-/

set_option autoImplicit false

namespace StylePrune

namespace Report

/-- The uses that a report lists for a file. -/
def usesOf (r : Report) (file : Text) : List Css.Use := (r.get? file).getD []

theorem usesOf_of_mem {r : Report} {e : Text × List Css.Use} (h : e ∈ r.entries) : r.usesOf e.1 = e.2 := by
  rw [usesOf, Table.get?_of_mem h, Option.getD_some]

theorem mem_entries_of_isSome {r : Report} {file : Text} (h : (r.get? file).isSome) :
    (file, r.usesOf file) ∈ r.entries := by
  obtain ⟨us, hus⟩ := Option.isSome_iff_exists.1 h
  rw [usesOf, hus]
  exact Table.mem_of_get? hus

theorem useOfJson_useToJson (file : Text) (u : Css.Use) : useOfJson file (useToJson u) = .ok u := by
  obtain ⟨s, m⟩ := u
  cases m <;> rfl

theorem usesOfJson_map (file : Text) (us : List Css.Use) : usesOfJson file (us.map useToJson) = .ok us := by
  induction us with
  | nil => rfl
  | cons u us ih => rw [List.map_cons, usesOfJson, useOfJson_useToJson, ih]; rfl

theorem filesOfJson_map {es fs : List (Text × List Css.Use)}
    (h : filesOfJson (es.map fun e => (e.1, .array (e.2.map useToJson))) = .ok fs) : fs = es := by
  induction es generalizing fs with
  | nil => exact (Except.ok.inj h).symm
  | cons e es ih =>
    rw [List.map_cons, filesOfJson] at h
    split at h
    · cases h
    · simp only [Json.array?, usesOfJson_map] at h
      cases hes : filesOfJson (es.map fun e => (e.1, .array (e.2.map useToJson))) with
      | error f => rw [hes] at h; cases h
      | ok gs =>
        rw [hes] at h
        rw [← ih hes]
        exact (Except.ok.inj h).symm

/-- A report that is taken at all arrives as it was sent. -/
theorem eq_of_ofJson_toJson {r sent : Report} (h : ofJson sent.toJson = .ok r) : r = sent := by
  unfold ofJson at h
  split at h
  · cases h
  · cases h
  · rename_i fs hfs hne
    obtain rfl := Option.some.inj hne
    cases hes : filesOfJson (sent.entries.map fun e => (e.1, .array (e.2.map useToJson))) with
    | error f => rw [hes] at h; cases h
    | ok es =>
      rw [hes, filesOfJson_map hes] at h
      rw [← Except.ok.inj h]
      exact Table.ofList_entries sent

end Report

namespace Sampling

namespace Record

/-- The record makes a report list a use for a file. -/
def Lists (r : Record) (file : Text) (u : Css.Use) : Prop :=
  r.sighting.file = file ∧ r.verdict = .unused ∧ (r.sighting.selector, r.sighting.media) = u

theorem isSome_get?_addTo (report : Report) (r : Record) (file : Text) :
    ((r.addTo report).get? file).isSome ↔ r.sighting.file = file ∨ (report.get? file).isSome := by
  rw [addTo, Table.get?_insert]
  by_cases h : file = r.sighting.file
  · simp [h]
  · simp [h, Ne.symm h]

theorem mem_usesOf_addTo (report : Report) (r : Record) (file : Text) (u : Css.Use) :
    u ∈ (r.addTo report).usesOf file ↔ r.Lists file u ∨ u ∈ report.usesOf file := by
  by_cases h : file = r.sighting.file
  · subst h
    have hget : (r.addTo report).usesOf r.sighting.file =
        if r.verdict = .unused ∧ (r.sighting.selector, r.sighting.media) ∉ report.usesOf r.sighting.file then
          report.usesOf r.sighting.file ++ [(r.sighting.selector, r.sighting.media)]
        else report.usesOf r.sighting.file := by
      rw [Report.usesOf, addTo, Table.get?_insert, if_pos rfl]
      rfl
    rw [hget]
    split
    · rename_i hnew
      simp [Lists, hnew.1, eq_comm, or_comm]
    · rename_i hold
      constructor
      · exact .inr
      · rintro (⟨-, hv, rfl⟩ | hu)
        · exact Decidable.not_not.1 fun hn => hold ⟨hv, hn⟩
        · exact hu
  · have hget : (r.addTo report).usesOf file = report.usesOf file := by
      rw [Report.usesOf, addTo, Table.get?_insert, if_neg h]
      rfl
    simp [hget, Lists, Ne.symm h]

end Record

theorem isSome_get?_foldl_addTo (rs : List Record) (report : Report) (file : Text) :
    (Table.get? (rs.foldl Record.addTo report) file).isSome ↔
      (report.get? file).isSome ∨ ∃ r ∈ rs, r.sighting.file = file := by
  induction rs generalizing report with
  | nil => simp
  | cons r rs ih => simp [ih, Record.isSome_get?_addTo, or_assoc, or_left_comm]

theorem mem_usesOf_foldl_addTo (rs : List Record) (report : Report) (file : Text) (u : Css.Use) :
    u ∈ Report.usesOf (rs.foldl Record.addTo report) file ↔ u ∈ report.usesOf file ∨ ∃ r ∈ rs, r.Lists file u := by
  induction rs generalizing report with
  | nil => simp
  | cons r rs ih => simp [ih, Record.mem_usesOf_addTo, or_assoc, or_left_comm]

/-- A report names the files that have a record, whatever is thought of their selectors. -/
theorem isSome_get?_reportOf (rs : List Record) (file : Text) :
    ((reportOf rs).get? file).isSome ↔ ∃ r ∈ rs, r.sighting.file = file := by
  rw [reportOf, isSome_get?_foldl_addTo, Table.get?_empty]
  simp

theorem mem_usesOf_reportOf (rs : List Record) (file : Text) (u : Css.Use) :
    u ∈ (reportOf rs).usesOf file ↔ ∃ r ∈ rs, r.Lists file u := by
  rw [reportOf, mem_usesOf_foldl_addTo, Report.usesOf, Table.get?_empty]
  simp

end Sampling
end StylePrune
