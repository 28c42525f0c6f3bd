import StylePrune.Number.Limit
import StylePrune.Site
import StylePrune.Sampling.Reference

/-!
Where a sampler gets a stylesheet from: the document root if the sheet belongs to the page's own site
and can be read there, else the network.
-/

set_option autoImplicit false

namespace StylePrune.Sampling

/-- What can be read: the site, if its files are at hand, the page's own locator, the disk, and what
the network has at a locator. -/
structure Sources where
  site : Option Site
  pageUrl : Option Text
  disk : Disk
  network : Text → Option Text

/-- What no scan survives. -/
inductive ScanError where
  | reference (e : Url.Error)
  | badName (b : Disk.BadName)
  | tooLong (t : Number.TooLong)
  /-- Imports lead deeper than sheets are followed. -/
  | tooDeep
  deriving DecidableEq, Repr

def ScanError.message : ScanError → Text
  | .reference e => e.message
  | .badName b => b.message
  | .tooLong t => t.message
  | .tooDeep => "Imports are nested too deeply"

/-- How loading ended. -/
inductive Loaded where
  | css (text : Text)
  | unreadable
  | unreachable
  deriving DecidableEq, Repr

/-- A stylesheet that was asked for, and whether the network was asked. -/
structure Load where
  outcome : Loaded
  fetched : Bool
  deriving DecidableEq, Repr

def Load.css? (l : Load) : Option Text :=
  match l.outcome with
  | .css s => some s
  | _ => none

/-- The warning about a sheet that is left out. -/
def Load.warning? (url : Text) (l : Load) : Option Text :=
  match l.outcome with
  | .css _ => none
  | .unreadable => some ("Stylesheet skipped, not readable: " ++ url)
  | .unreachable => some ("Stylesheet skipped, fetch failed: " ++ url)

/-- The sheet as the document root has it, if it is the page's own site that has it. -/
def Sources.fromSite (s : Sources) (url : Text) : Except ScanError (Option Text) :=
  match s.site with
  | none => .ok none
  | some site => match sharesOrigin s.pageUrl url with
    | .error e => .error (.reference e)
    | .ok false => .ok none
    | .ok true => match SourceKey.ofReference url with
      | .error e => .error (.reference e)
      | .ok file => match Site.read site (fun _ => false) s.disk file with
        | .ok r => .ok (some r.1)
        | .error (.badName b) => .error (.badName b)
        | .error (.unavailable _) => .ok none

def Sources.load (s : Sources) (url : Text) : Except ScanError Load :=
  match s.fromSite url with
  | .error e => .error e
  | .ok (some css) => .ok ⟨.css css, false⟩
  | .ok none => match Url.parse url with
    | .error e => .error (.reference e)
    | .ok u =>
      if u.scheme = "http" ∨ u.scheme = "https" then
        .ok ⟨(s.network url).elim .unreachable .css, true⟩
      else .ok ⟨.unreadable, false⟩

end StylePrune.Sampling
