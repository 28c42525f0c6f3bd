import StylePrune.Site

/-!
Copies of a site's stylesheets, under a directory named for the moment they were made.
-/

set_option autoImplicit false

namespace StylePrune.Backup

open Disk (Action Errno)

/-- A moment of local time. -/
structure Moment where
  year : Nat
  month : Nat
  day : Nat
  hour : Nat
  minute : Nat
  second : Nat
  deriving DecidableEq, Repr

/-- Every field but the year has two digits. -/
def Moment.stamp (m : Moment) : Text :=
  let two := Text.padded 2
  Text.ofNat m.year ++ .char '-' :: two m.month ++ .char '-' :: two m.day ++ .char '_' :: two m.hour ++ .char '-' :: two m.minute ++
    .char '-' :: two m.second

def failed (file : Text) : Text := "Backup failed for " ++ file

/-- Copies one stylesheet to its place below `directory`. A file that cannot be used is left to
generation, which says so; a copy that fails is an error of the backup. -/
def copy (s : Site) (directory : Text) (file : Text) : Action Disk.BadName (List Text) := fun d =>
  match Site.locate s d file with
  | .error (.badName b) => (.error b, d)
  | .error (.unavailable _) => (.ok [], d)
  | .ok place => match d.resolve s.root with
    | .error b => (.error b, d)
    | .ok root =>
      let target := Path.join directory (Path.relative (Disk.pathOf root) (Disk.pathOf place))
      let r := (do
        Disk.makeDirectories (Path.names (Path.normalize target)).dropLast
        Disk.copyFile (Disk.pathOf place) target : Action Errno Unit) d
      (match r.1 with | .ok () => .ok [] | .error _ => .ok [failed file], r.2)

/-- Copies stylesheets in order and lists the copies that failed. -/
def copyAll (s : Site) (directory : Text) : List Text → Action Disk.BadName (List Text)
  | [] => pure []
  | f :: fs => do
    let errors ← if f = SourceKey.inline then pure [] else copy s directory f
    let rest ← copyAll s directory fs
    return errors ++ rest

end StylePrune.Backup
