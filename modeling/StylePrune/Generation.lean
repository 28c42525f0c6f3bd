import StylePrune.Backup
import StylePrune.Css.Minify
import StylePrune.Css.Prune
import StylePrune.Css.Reader
import StylePrune.Ledger

/-!
Writing the cleaned stylesheets. Each file of the ledger is read, cleaned and written below the
output directory; the cleaned texts together, minified, make the bundle. A file that fails is
reported and left out.
-/

set_option autoImplicit false

namespace StylePrune

/-- What a request writes as a whole. -/
inductive Written where
  | ledger
  | cleaned (file : Text)
  | bundle
  deriving DecidableEq, Repr

/-- What the surroundings do to a request: files that cannot be opened, files that are not done in
time, and writes that fail at their last step. -/
structure Faults where
  locked : Text → Bool
  late : Text → Bool
  unwritable : Written → Bool

def Faults.none : Faults := ⟨fun _ => false, fun _ => false, fun _ => false⟩

namespace Generation

open Disk (Action Errno)

/-- Where generation reads and writes, and how many files it works on at a time. `budget` is the time that
it may take, in seconds as messages show it; `backup` is a directory for copies of the sheets as they were
read, if they are wanted. -/
structure Setup where
  site : Site
  output : Text
  bundleName : Text
  workers : Nat
  budget : Text
  backup : Option Text
  deriving DecidableEq, Repr

def defaultBundleName : Text := "remove-unused-css.min.css"

/-- Why generation cannot be set up. -/
inductive SetupError where
  | badName (b : Disk.BadName)
  | outputInside (output root : Text)
  deriving DecidableEq, Repr

def SetupError.message : SetupError → Text
  | .badName b => b.message
  | .outputInside output root => "Output directory " ++ output ++ " lies inside document root " ++ root

/-- The output directory must not lie inside the site, whatever links lead there. -/
def Setup.check (u : Setup) (d : Disk) : Except SetupError Unit :=
  match d.leadsBelow u.output u.site.root with
  | .error b => .error (.badName b)
  | .ok true => .error (.outputInside u.output u.site.root)
  | .ok false => .ok ()

/-- The path at which the cleaned form of a file is written. -/
def Setup.destination (u : Setup) (d : Disk) (file : Text) : Except Disk.BadName Text := do
  let root ← d.resolve u.site.root
  let place ← d.resolve (Path.join (Disk.pathOf root) file)
  return Path.join u.output (Path.relative (Disk.pathOf root) (Disk.pathOf place))

def Setup.bundlePath (u : Setup) : Text := Path.join u.output u.bundleName

/-- The cleaned text of a stylesheet and the number of selectors that went. -/
def clean (st : Statuses) (css : Text) : Except Css.ParseError (Text × Nat) :=
  (Css.Sheet.parse css).map fun sheet =>
    let r := sheet.prune st
    (r.1.render, r.2)

/-- A file that was cleaned and written. -/
structure Cleaned where
  file : Text
  css : Text
  sizeBefore : Nat
  removed : Nat
  deriving DecidableEq, Repr

def Cleaned.size (c : Cleaned) : Nat := Text.utf8Size c.css

/-- Why a run has no result. -/
inductive RunError where
  | badName (b : Disk.BadName)
  | tooLong (t : Number.TooLong)
  | unspellable
  | timedOut (budget : Text)
  | bundleNotWritten (e : Errno)
  deriving DecidableEq, Repr

def RunError.message : RunError → Text
  | .badName b => b.message
  | .tooLong t => t.message
  | .unspellable => Disk.BadName.unspellable.message
  | .timedOut budget => "Rewrite exceeded " ++ budget ++ "s"
  | .bundleNotWritten _ => "Could not write combined file"

/-- Why a file was not cleaned. -/
inductive FileError where
  /-- This ends the whole run. -/
  | fatal (e : RunError)
  | unavailable (u : Site.Unavailable)
  | illFormed (e : Css.SyntaxError)
  | notWritten (e : Errno)
  deriving DecidableEq, Repr

/-- The line that reports a file. -/
def FileError.line (file : Text) : FileError → Text
  | .fatal e => e.message
  | .unavailable u => u.message file
  | .illFormed e => "CSS parse error in " ++ file ++ ": " ++ e.message
  | .notWritten _ => "Could not write cleaned file for " ++ file

/-- Reads and cleans one file. -/
def prepare (u : Setup) (w : Faults) (d : Disk) (file : Text) (st : Statuses) :
    Except FileError (Cleaned × Text) :=
  if w.late file then .error (.fatal (.timedOut u.budget))
  else match Site.read u.site w.locked d file with
  | .error (.badName b) => .error (.fatal (.badName b))
  | .error (.unavailable x) => .error (.unavailable x)
  | .ok r => match clean st r.1 with
    | .error (.tooLong t) => .error (.fatal (.tooLong t))
    | .error (.illFormed e) => .error (.illFormed e)
    | .ok c => match u.destination d file with
      | .error b => .error (.fatal (.badName b))
      | .ok path => .ok (⟨file, c.1, r.2, c.2⟩, path)

def cleanFile (u : Setup) (w : Faults) (file : Text) (st : Statuses) : Action FileError Cleaned := do
  let p ← Action.ask fun d => prepare u w d file st
  (Disk.replaceFile p.2 p.1.css (w.unwritable (.cleaned file))).mapError fun
    | .unspellable => .fatal .unspellable
    | .errno e => .notWritten e
  return p.1

/-- What came of the files that were tried. -/
structure Outcome where
  cleaned : List Cleaned
  errors : List Text

/-- Cleans files although nothing will come of the run. -/
def cleanInVain (u : Setup) (w : Faults) : List (Text × Statuses) → Action RunError Unit
  | [] => pure ()
  | e :: es => do
    let _ ← (cleanFile u w e.1 e.2).attempt
    cleanInVain u w es

/-- Cleans files in order. Before a failure ends the run each worker has taken up one more file. -/
def cleanFiles (u : Setup) (w : Faults) : List (Text × Statuses) → Action RunError Outcome
  | [] => pure ⟨[], []⟩
  | e :: es => do
    let r ← (cleanFile u w e.1 e.2).attempt
    match r with
    | .ok c => do
      let rest ← cleanFiles u w es
      return { rest with cleaned := c :: rest.cleaned }
    | .error (.fatal x) => do
      cleanInVain u w (es.take u.workers)
      throw x
    | .error x => do
      let rest ← cleanFiles u w es
      return { rest with errors := x.line e.1 :: rest.errors }

/-- All cleaned texts, each under a comment with its name, minified. -/
def bundle (cs : List Cleaned) : Except Number.TooLong Text :=
  Css.minify (cs.flatMap fun c => "/* " ++ c.file ++ " */\n" ++ c.css ++ "\n\n")

structure Statistics where
  processedFiles : Nat
  generatedFiles : Nat
  hasBundle : Bool
  sizeBefore : Nat
  sizeAfter : Nat
  bundleSize : Nat
  removed : Nat
  deriving DecidableEq, Repr

def Statistics.saved (s : Statistics) : Int := s.sizeBefore - s.sizeAfter

/-- A number of each cleaned file, summed over all of them. -/
def Cleaned.total (f : Cleaned → Nat) (cs : List Cleaned) : Nat := cs.foldr (fun c n => f c + n) 0

/-- The bundle, if there is one, counts as one more generated file. -/
def Statistics.of (cs : List Cleaned) (bundle : Option Text) : Statistics where
  processedFiles := cs.length
  generatedFiles := cs.length + bundle.toList.length
  hasBundle := bundle.isSome
  sizeBefore := Cleaned.total Cleaned.sizeBefore cs
  sizeAfter := Cleaned.total Cleaned.size cs
  bundleSize := bundle.elim 0 Text.utf8Size
  removed := Cleaned.total Cleaned.removed cs

/-- What a run gives back. -/
structure Result where
  files : List Text
  errors : List Text
  statistics : Statistics
  deriving DecidableEq, Repr

/-- The files of a ledger that have a stylesheet. -/
def filesOf (l : Ledger) : List (Text × Statuses) := l.entries.filter (·.1 ≠ SourceKey.inline)

/-- Copies the sheets as they are on the site, if that is wanted. -/
def backUp (u : Setup) (moment : Text) (l : Ledger) : Action RunError (List Text) :=
  match u.backup with
  | none => pure []
  | some dir => (Backup.copyAll u.site (Path.join dir moment) (l.keys.filter (· ≠ SourceKey.inline))).mapError
      .badName

/-- Makes the bundle and writes it; of no texts there is none. -/
def writeBundle (u : Setup) (w : Faults) (cs : List Cleaned) : Action RunError (Option Text) :=
  if cs.isEmpty then pure none
  else match bundle cs with
  | .error t => throw (.tooLong t)
  | .ok css => do
    (Disk.replaceFile u.bundlePath css (w.unwritable .bundle)).mapError fun
      | .unspellable => .unspellable
      | .errno e => .bundleNotWritten e
    return some css

/-- Cleans every file that a ledger names. `moment` names the backup. -/
def run (u : Setup) (w : Faults) (moment : Text) (l : Ledger) : Action RunError Result := do
  let failed ← backUp u moment l
  let o ← cleanFiles u w (filesOf l)
  let css ← writeBundle u w o.cleaned
  return ⟨o.cleaned.map Cleaned.file, failed ++ o.errors, .of o.cleaned css⟩

end Generation
end StylePrune
