import StylePrune.Number
import StylePrune.Generation
import StylePrune.Settings.Environment

/-!
What can be set, and where each value comes from: the environment, else the profile, else a value
that suits every profile.
-/

set_option autoImplicit false

namespace StylePrune

/-- Where the program runs. -/
inductive Profile where
  | development | production | testing
  deriving DecidableEq, Repr

/-- A name that no profile has means development. -/
def Profile.ofName (name : Text) : Profile :=
  if name = "production" then .production
  else if name = "testing" then .testing
  else .development

/-- The profile that is asked for, else the one that the environment names. -/
def Profile.choose (env : Environment) : (asked : Option Text) → Profile
  | none | some [] => .ofName (env.getD "FLASK_ENV" "development")
  | some name => .ofName name

/-- The key that sessions are signed with. A generated one is always long enough. -/
inductive Secret where
  | absent
  | given (key : Text)
  | generated
  deriving DecidableEq, Repr

namespace Secret

/-- Characters that a key must have. -/
def minLength : Nat := 32

def length : Secret → Nat
  | .absent => 0
  | .given key => key.length
  | .generated => 64

def isUsable (s : Secret) : Bool := minLength ≤ s.length

end Secret

structure Settings where
  profile : Profile
  secret : Secret
  debug : Bool
  maxBody : Nat
  documentRoot : Text
  ledgerFile : Text
  outputDirectory : Text
  bundleName : Text
  backupDirectory : Text
  keepsBackups : Bool
  maxSize : Int
  generationTimeout : Decimal
  generationWorkers : Int
  scanInterval : Decimal
  scanDebounce : Decimal
  fetchTimeout : Decimal
  host : Text
  portNumber : Int
  proxyHops : Int
  limitStorage : Text
  logLevel : Text
  logDirectory : Text
  deriving DecidableEq, Repr

namespace Settings

def whole (env : Environment) (name : Text) (instead : Int) : Except Number.Fault Int :=
  match env.get? name with
  | some s => Number.int s
  | none => .ok instead

def measured (env : Environment) (name : Text) (instead : Decimal) : Except Number.Fault Decimal :=
  match env.get? name with
  | some s => Number.decimal s
  | none => .ok instead

def seconds (n : Nat) : Decimal := .finite false n 0

def tenths (n : Nat) : Decimal := .finite false n (-1)

/-- The settings of the development profile, without what only that profile has. -/
def shared (env : Environment) : Except Number.Fault Settings := do
  let maxSize ← whole env "MAX_CSS_FILE_SIZE" Site.defaultMaxSize
  let generationTimeout ← measured env "REWRITE_TIMEOUT" (seconds 100)
  let generationWorkers ← whole env "REWRITE_WORKERS" 4
  let scanInterval ← measured env "SCAN_INTERVAL" (seconds 1)
  let scanDebounce ← measured env "SCAN_DEBOUNCE" (tenths 1)
  let fetchTimeout ← measured env "FETCH_TIMEOUT" (seconds 10)
  let portNumber ← whole env "HTTP_PORT" 5000
  let proxyHops ← whole env "PROXY_HOPS" 1
  return {
    profile := .development
    secret := (env.get? "SECRET_KEY").elim .absent .given
    debug := env.flag "FLASK_DEBUG" "False"
    maxBody := 5 * 1024 * 1024
    documentRoot := env.getD "DOCUMENT_ROOT" "public"
    ledgerFile := env.getD "LEDGER_FILE" "data/unused_selectors.json"
    outputDirectory := env.getD "OUTPUT_DIR" "build/css/"
    bundleName := env.getD "COMBINED_FILE_NAME" Generation.defaultBundleName
    backupDirectory := env.getD "BACKUP_DIR" "backup/"
    keepsBackups := env.flag "BACKUP_ENABLED" "True"
    maxSize, generationTimeout, generationWorkers, scanInterval, scanDebounce, fetchTimeout
    host := env.getD "FLASK_HOST" "127.0.0.1"
    portNumber, proxyHops
    limitStorage := env.getD "RATELIMIT_STORAGE_URI" "memory://"
    logLevel := env.getD "LOG_LEVEL" "INFO"
    logDirectory := env.getD "LOG_DIR" "logs" }

/-- What a profile settles of its own accord. -/
def adapt (env : Environment) (s : Settings) : Profile → Settings
  | .development => { s with
      keepsBackups := true
      logLevel := env.getD "LOG_LEVEL" "DEBUG" }
  | .production => { s with
      profile := .production
      debug := false
      host := env.getD "FLASK_HOST" "0.0.0.0"
      portNumber := if (env.get? "HTTP_PORT").isSome then s.portNumber else 8080 }
  | .testing => { s with
      profile := .testing
      secret := .generated
      debug := true
      keepsBackups := false
      generationWorkers := 2
      generationTimeout := .whole 30
      fetchTimeout := .whole 1
      portNumber := 5001
      logLevel := "WARNING" }

def read (env : Environment) (p : Profile) : Except Number.Fault Settings :=
  (shared env).map (adapt env · p)

/-- Only a deployed endpoint hides what went wrong. -/
def propagatesErrors (s : Settings) : Bool := s.profile ≠ .production

def isTesting (s : Settings) : Bool := s.profile = .testing

/-- The variables that settings are read from. -/
def variableNames : List Text :=
  Text.splitOn ' ' <| "FLASK_ENV SECRET_KEY FLASK_DEBUG DOCUMENT_ROOT LEDGER_FILE OUTPUT_DIR " ++
    "COMBINED_FILE_NAME BACKUP_DIR BACKUP_ENABLED MAX_CSS_FILE_SIZE REWRITE_TIMEOUT REWRITE_WORKERS " ++
    "SCAN_INTERVAL SCAN_DEBOUNCE FETCH_TIMEOUT FLASK_HOST HTTP_PORT PROXY_HOPS " ++
    "RATELIMIT_STORAGE_URI LOG_LEVEL LOG_DIR"

/-- Why no settings can be had. -/
inductive LoadError where
  | environment (f : Environment.Fault)
  | number (f : Number.Fault)
  deriving DecidableEq, Repr

def LoadError.message : LoadError → Text
  | .environment f => f.message
  | .number f => f.message

/-- The environment with its file, and the settings that it makes. -/
def load (env : Environment) (cwd : Text) (d : Disk) (asked : Option Text) :
    Except LoadError (Environment × Settings) :=
  match env.withFile cwd d with
  | .error f => .error (.environment f)
  | .ok env => match read env (Profile.choose env asked) with
    | .error f => .error (.number f)
    | .ok s => .ok (env, s)

end Settings
end StylePrune
