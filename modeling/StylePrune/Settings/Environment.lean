import StylePrune.Disk
import StylePrune.Text.Blank
import StylePrune.Text.Newline

/-!
Environment variables, and a file of more of them. A line of the file gives a name and a value, in
quotes or not; values may refer to other variables. What the environment has already stays.
-/

set_option autoImplicit false

namespace StylePrune

abbrev Environment := Table Text Text

namespace Environment

/-- Blanks that do not end a line. -/
def isSpacing (c : CodePoint) : Bool := Text.isBlank c && c != '\n'

/-- The text up to the quote that closes it, and what follows. A quote after a backslash closes only
if no other does. -/
def untilQuote? (q : CodePoint) (escaped : Bool) : Text → Option (Text × Text)
  | [] => none
  | c :: s =>
    if c = q ∧ !escaped then some ([], s)
    else match untilQuote? q (c = '\\') s with
      | some (v, rest) => some (c :: v, rest)
      | none => if c = q then some ([], s) else none

/-- What a backslash and a character stand for between quotes `q`. -/
def escaped? (q c : CodePoint) : Option CodePoint :=
  if c = '\\' ∨ c = '\'' then some c
  else if q = '\'' then none
  else if c = '"' then some c
  else if c = 'a' then some '\x07'
  else if c = 'b' then some '\x08'
  else if c = 'f' then some '\x0c'
  else if c = 'n' then some '\n'
  else if c = 'r' then some '\r'
  else if c = 't' then some '\t'
  else if c = 'v' then some '\x0b'
  else none

def unescape (q : CodePoint) : Text → Text
  | '\\' :: c :: s => match escaped? q c with
    | some d => d :: unescape q s
    | none => '\\' :: unescape q (c :: s)
  | c :: s => c :: unescape q s
  | [] => []

/-- A value without quotes, up to a number sign after a blank. -/
def untilComment : Text → Text
  | [] => []
  | c :: s => if Text.isBlank c && s.head? == some (.char '#') then [] else c :: untilComment s

/-- A value and what follows it; `none` for an open quote. -/
def value? : Text → Option (Text × Text)
  | [] => some ([], [])
  | c :: s =>
    if c = '\'' ∨ c = '"' then (untilQuote? c false s).map fun r => (unescape c r.1, r.2)
    else
      let line := (c :: s).takeWhile (· ≠ .char '\n')
      some (Text.trimRight Text.isBlank (untilComment line), (c :: s).drop line.length)

/-- `none` where a line has no name, as a comment does. -/
def name? : Text → Option (Option Text × Text)
  | '#' :: s => some (none, '#' :: s)
  | '\'' :: s => match Text.cutAt? ['\''] s with
    | some (c :: name, rest) => some (some (c :: name), rest)
    | _ => none
  | s =>
    let name := s.takeWhile fun (c : CodePoint) => c != '=' && c != '#' && !Text.isBlank c
    if name = [] then none else some (some name, s.drop name.length)

/-- The word that may stand before a name. -/
def afterExport (s : Text) : Text :=
  match Text.after? "export" s with
  | some (c :: rest) => if isSpacing c then rest.dropWhile isSpacing else s
  | _ => s

/-- What follows a line that holds no more than a comment. -/
def lineEnd? (s : Text) : Option Text :=
  match s.dropWhile isSpacing with
  | '#' :: rest => some ((rest.dropWhile (· ≠ .char '\n')).drop 1)
  | '\n' :: rest => some rest
  | [] => some []
  | _ => none

/-- A name and what a file says of it: without an equals sign there is no value. -/
abbrev Binding := Text × Option Text

/-- One binding and the rest, or else where reading broke off. -/
def binding? (s : Text) : Except Text (Option Binding × Text) :=
  let s := afterExport s
  match name? s with
  | none => .error s
  | some (name, rest) => match rest.dropWhile isSpacing with
    | '=' :: rest =>
      let rest := rest.dropWhile isSpacing
      match value? rest with
      | none => .error rest
      | some (v, rest) => match lineEnd? rest with
        | none => .error rest
        | some next => .ok (name.map (·, some v), next)
    | rest => match lineEnd? rest with
      | none => .error rest
      | some next => .ok (name.map (·, none), next)

/-- The bindings of a file in order. A line that cannot be read is left out from there on. -/
def bindings : (fuel : Nat) → Text → List Binding
  | 0, _ => []
  | fuel + 1, s => match s.dropWhile Text.isBlank with
    | [] => []
    | c :: s => match binding? (c :: s) with
      | .ok (b, rest) => b.toList ++ bindings fuel rest
      | .error rest => bindings fuel ((rest.dropWhile (· ≠ .char '\n')).drop 1)

/-- The name in a reference, what it stands for where nothing else does, and what follows. -/
def reference? (s : Text) : Option (Text × Text × Text) := do
  let s ← Text.after? "$\x7b" s
  let name := s.takeWhile fun (c : CodePoint) => c != '\x7d' && c != ':'
  match s.drop name.length with
  | '\x7d' :: rest => some (name, [], rest)
  | ':' :: '-' :: rest =>
    let r ← Text.cutAt? ['\x7d'] rest
    some (name, r.1, r.2)
  | _ => none

/-- A value with its references replaced. -/
def expand (lookup : Text → Option Text) : (fuel : Nat) → Text → Text
  | 0, s => s
  | _ + 1, [] => []
  | fuel + 1, c :: s => match reference? (c :: s) with
    | some (name, instead, rest) => (lookup name).getD instead ++ expand lookup fuel rest
    | none => c :: expand lookup fuel s

/-- The names that values refer to. -/
def mentioned : (fuel : Nat) → Text → List Text
  | 0, _ => []
  | fuel + 1, s => match Text.cutAt? "$\x7b" s with
    | some (_, rest) => rest.takeWhile (fun (c : CodePoint) => c != '\x7d' && c != ':') :: mentioned fuel rest
    | none => []

/-- Why a file of variables cannot be taken over. -/
inductive Fault where
  | notUtf8
  | nulByte
  | illegalName
  deriving DecidableEq, Repr

def Fault.message : Fault → Text
  | .notUtf8 => "Not UTF-8"
  | .nulByte => "embedded null byte"
  | .illegalName => "illegal environment variable name"

/-- The values of a file. A reference takes the environment's value first, then the one before it in
the file, which is empty for a name without a value. -/
def resolve (env : Environment) (bs : List Binding) : Table Text (Option Text) :=
  bs.foldl (fun t b =>
    let lookup (name : Text) : Option Text := (env.get? name).or ((t.get? name).map (·.getD []))
    t.insert b.1 (b.2.map fun v => expand lookup v.length v)) Table.empty

/-- Adds the variables that the environment does not have. -/
def add (env : Environment) : List Binding → Except Fault Environment
  | [] => .ok env
  | (_, none) :: rest => add env rest
  | (name, some v) :: rest =>
    if (env.get? name).isSome then add env rest
    else if name.contains '\x00' || v.contains '\x00' then .error .nulByte
    else if name.contains '=' then .error .illegalName
    else add (env.insert name v) rest

/-- The variable that names the file of variables, and the file if it is not set. -/
def fileName : Text := "PRUNER_ENV_FILE"

def defaultFile : Text := ".env"

/-- The environment with what its file adds. No file adds nothing. -/
def withFile (env : Environment) (cwd : Text) (d : Disk) : Except Fault Environment :=
  match d.openFrom cwd ((env.get? fileName).getD defaultFile) with
  | .error _ => .ok env
  | .ok f => match Utf8.decode? f.1 with
    | none => .error .notUtf8
    | some s => add env (resolve env (bindings (s.length + 1) (Text.unifyNewlines s))).entries

def getD (env : Environment) (name instead : Text) : Text := (env.get? name).getD instead

/-- Is a switch on? Only the word `true` says so, in any case of letters. -/
def flag (env : Environment) (name instead : Text) : Bool := Text.asciiLower (env.getD name instead) = "true"

end Environment
end StylePrune
