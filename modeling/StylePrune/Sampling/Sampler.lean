import StylePrune.Html.Query
import StylePrune.Sampling.Collection
import StylePrune.Sampling.Duplicates

/-!
Scanning a page again and again as it changes. A selector that matched once is never asked again:
used is final, whatever becomes of its rule.
-/

set_option autoImplicit false

namespace StylePrune.Sampling

/-- What is remembered from scan to scan. -/
structure Sampler where
  records : Table Sighting Record
  used : List Text
  selectors : Option (List Text)
  duplicates : Option (List Text)

def Sampler.fresh : Sampler := ⟨Table.empty, [], none, none⟩

/-- What a scan gives back. `notices` are the duplicates that are worth a line in the log. -/
structure Scan where
  records : List Record
  added : List Text
  removed : List Text
  duplicates : List Text
  warnings : List Text
  fetched : List Text
  notices : List Text
  deriving DecidableEq, Repr

namespace Scan

def report (s : Scan) : Report := reportOf s.records

def countUnused (s : Scan) : Nat := Sampling.countUnused s.records

end Scan

def commaList (xs : List Text) : Text := Text.joinWith ", " xs

/-- The log's lines about duplicates. -/
def Duplicates.notices (d : Duplicates) : List Text :=
  (d.longRuns.map fun run =>
    "Duplicated sequence of " ++ Text.ofNat run.length ++ " selectors: " ++ commaList run) ++
  if d.selectors.isEmpty then [] else ["Duplicated selectors: " ++ commaList d.selectors]

def Duplicates.warnings (d : Duplicates) : List Text :=
  d.longRuns.map fun run => "Duplicated sequence of selectors: " ++ commaList run

/-- The records of what was found: the one from before, if there is one. -/
def recordsOf (before : Table Sighting Record) (found : List Sighting) : Table Sighting Record :=
  found.foldl (fun t s =>
    if (t.get? s).isSome then t
    else t.insert s ((before.get? s).getD (.fresh s (Selector.isEligible s.selector)))) Table.empty

/-- Tests a record that is not known to be used. -/
def testRecord (isUsed : Text → Bool) (r : Record) : Record :=
  if r.verdict = .used then r
  else if isUsed r.sighting.selector then r.asUsed
  else r.asUnused

/-- The selectors that this scan found to be used, beside those known before. -/
def newlyUsed (isUsed : Text → Bool) (rs : List Record) : List Text :=
  ((rs.filter fun r => r.verdict ≠ .used && isUsed r.sighting.selector).map (·.sighting.selector)).eraseDups

/-- One scan of a collection, given which selectors match the page. -/
def Sampler.step (matched : Text → Bool) (c : Collection) (s : Sampler) : Scan × Sampler :=
  let d := Sampling.duplicates c.found
  let records := recordsOf s.records c.found
  let now := (c.found.map (·.selector)).eraseDups
  let isUsed (x : Text) : Bool := s.used.contains x || matched x
  let tested := records.map fun _ r => testRecord isUsed r
  let changes (a b : List Text) : List Text := Text.sorted (a.filter fun x => !b.contains x)
  ({ records := tested.entries.map Prod.snd
     added := s.selectors.elim [] (changes now)
     removed := s.selectors.elim [] (changes · now)
     duplicates := d.selectors
     warnings := c.warnings ++ d.warnings
     fetched := c.fetched
     notices := if s.duplicates = some d.selectors then [] else d.notices },
   { records := tested
     used := s.used ++ (newlyUsed isUsed (records.entries.map Prod.snd)).filter fun x => !s.used.contains x
     selectors := some now
     duplicates := some d.selectors })

/-- Reads the stylesheets anew and tests what is not known to be used. -/
def Sampler.scan (sources : Sources) (p : Html.Page) (s : Sampler) : Except ScanError (Scan × Sampler) :=
  (gather sources p).map fun c => s.step p.selects c

end StylePrune.Sampling
