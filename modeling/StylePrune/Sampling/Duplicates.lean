import StylePrune.Sampling.Record

/-!
Selectors that are declared again under the same media, in whatever file, and long stretches of them.
-/

set_option autoImplicit false

namespace StylePrune.Sampling

/-- A stretch of this many repeated selectors is not yet long. -/
def shortRun : Nat := 5

structure Duplicates where
  selectors : List Text
  longRuns : List (List Text)
  deriving DecidableEq, Repr

/-- The uses met so far, and the stretch that is under way. -/
structure Duplicates.Scan where
  seen : List Css.Use
  run : List Text
  found : Duplicates
  deriving DecidableEq, Repr

namespace Duplicates.Scan

def start : Scan := ⟨[], [], ⟨[], []⟩⟩

/-- Ends the stretch that is under way. -/
def closeRun (s : Scan) : Scan :=
  { s with run := [],
           found.longRuns := s.found.longRuns ++ if shortRun < s.run.length then [s.run] else [] }

def step (s : Scan) (x : Sighting) : Scan :=
  if (x.selector, x.media) ∈ s.seen then
    { s with run := s.run ++ [x.selector], found.selectors := s.found.selectors ++ [x.selector] }
  else { s.closeRun with seen := s.seen ++ [(x.selector, x.media)] }

end Duplicates.Scan

def duplicates (found : List Sighting) : Duplicates := (found.foldl .step Duplicates.Scan.start).closeRun.found

end StylePrune.Sampling
