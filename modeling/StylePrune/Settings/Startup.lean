import StylePrune.Settings.Basic

/-!
What is made sure of before the program serves anybody. Production refuses to start without a key,
a site, and directories for the ledger and for what is generated; the other profiles only say so.
-/

set_option autoImplicit false

namespace StylePrune

inductive StartError where
  | missing (names : List Text)
  | noKey
  | shortKey
  | noDocumentRoot (path : Text)
  | notMade (e : Disk.Errno)
  deriving DecidableEq, Repr

namespace StartError

def message : StartError → Text
  | .missing names =>
    "Missing required production environment variables: [" ++
      Text.joinWith ", " (names.map Text.quoted) ++ "]"
  | .noKey => "SECRET_KEY must be set and at least 32 characters long in production"
  | .shortKey => "SECRET_KEY must be at least 32 characters"
  | .noDocumentRoot path => "Document root not found: " ++ path
  | .notMade e => e.message

end StartError

/-- What a start works on: settings, whose key may be replaced, the disk, and what was logged. -/
structure Start where
  settings : Settings
  disk : Disk
  log : List Text

namespace Start

/-- Steps of a start. A step that fails keeps what was done before. -/
abbrev Step (α : Type) := ExceptT StartError (StateM Start) α

def note (line : Text) : Step Unit := modify fun s => { s with log := s.log ++ [line] }

/-- Is there a usable key? If not, one is generated, which production does not allow. -/
def checkKey (env : Environment) : Step Bool := do
  let s ← get
  if s.settings.secret.isUsable then return true
  if env.get? "FLASK_ENV" = some "production" then throw .noKey
  set { s with settings := { s.settings with secret := .generated } }
  return false

def makeDirectories (p : Place) : Step Unit := fun s =>
  let r := Disk.makeDirectories p s.disk
  (r.1.mapError .notMade, { s with disk := r.2 })

/-- Variables that production cannot do without. -/
def required : List Text := ["SECRET_KEY", "DOCUMENT_ROOT"]

def placeOf (cwd path : Text) : Place := Path.names (Path.absolute cwd path)

/-- All that production asks for. -/
def checkProduction (env : Environment) (cwd : Text) : Step Unit := do
  let missing := required.filter fun name => (env.getD name []) = []
  if missing ≠ [] then throw (.missing missing)
  if !(← checkKey env) then throw .shortKey
  let s ← get
  let root := s.settings.documentRoot
  if !s.disk.isDirectoryFrom cwd root then throw (.noDocumentRoot root)
  makeDirectories (placeOf cwd s.settings.ledgerFile).dropLast
  makeDirectories (placeOf cwd s.settings.outputDirectory)

/-- The start of the program under its profile. -/
def run (env : Environment) (cwd : Text) : Step Unit := do
  let s := (← get).settings
  match s.profile with
  | .production =>
    checkProduction env cwd
    note ("Production checks passed for " ++ s.documentRoot)
  | .testing => note "Running in testing mode"
  | .development =>
    if !(← checkKey env) then note "SECRET_KEY not set, using a generated one"
    if !(← get).disk.isDirectoryFrom cwd s.documentRoot then
      note ("Document root " ++ s.documentRoot ++ " does not exist yet")
    note ("Development mode: pruning " ++ s.documentRoot ++ ", writing to " ++ s.outputDirectory)

end Start
end StylePrune
