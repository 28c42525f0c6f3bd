import StylePrune.Css.Sheet
import StylePrune.Report

/-!
What is known of one selector in one place. Used is final.
-/

set_option autoImplicit false

namespace StylePrune.Sampling

inductive Verdict where
  | unknown | used | unused
  deriving DecidableEq, Repr

/-- A selector of a file under some media. -/
structure Sighting where
  file : Text
  selector : Text
  media : Option Text
  deriving DecidableEq, Repr

structure Record where
  sighting : Sighting
  eligible : Bool
  verdict : Verdict
  deriving DecidableEq, Repr

namespace Record

/-- What may never be deleted counts as used from the start. -/
def fresh (s : Sighting) (eligible : Bool) : Record := ⟨s, eligible, if eligible then .unknown else .used⟩

def asUsed (r : Record) : Record := { r with verdict := .used }

def asUnused (r : Record) : Record := if r.verdict = .used then r else { r with verdict := .unused }

@[simp] theorem asUnused_asUsed (r : Record) : r.asUsed.asUnused = r.asUsed := by
  simp [asUsed, asUnused]

/-- Adds a record to a report: its file always, its selector if it is unused and not there yet. -/
def addTo (report : Report) (r : Record) : Report :=
  let known := (report.get? r.sighting.file).getD []
  let use : Css.Use := (r.sighting.selector, r.sighting.media)
  report.insert r.sighting.file (if r.verdict = .unused ∧ use ∉ known then known ++ [use] else known)

end Record

/-- The report of records, files in order of their first record. -/
def reportOf (rs : List Record) : Report := rs.foldl Record.addTo Table.empty

/-- Number of different selectors that are unused somewhere. -/
def countUnused (rs : List Record) : Nat :=
  ((rs.filter (·.verdict = .unused)).map (·.sighting.selector)).eraseDups.length

end StylePrune.Sampling
