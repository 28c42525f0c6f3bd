import StylePrune.Command.Option
import StylePrune.Number
import StylePrune.Settings.Basic

/-!
The command line: one command, which scans a page. Arguments are read in order, and the first that is
wrong or asks for help decides; what is missing or left over shows at the end.
-/

set_option autoImplicit false

namespace StylePrune.Command

/-- What a scan is asked to do. -/
structure Request where
  page : Text
  root : Text
  url : Option Text
  endpoint : Option Text
  action : Text
  timeout : Decimal
  isWatching : Bool
  deriving DecidableEq, Repr

inductive Arguments where
  | scan (r : Request)
  | help
  | misuse
  deriving DecidableEq, Repr

def topOptions : Options := [("-h", .help), ("--help", .help)]

def scanOptions : Options :=
  let own : Options := [("--root", .valued), ("--url", .valued), ("--report", .valued),
    ("--action", .valued), ("--timeout", .valued), ("--watch", .switch)]
  topOptions ++ own

/-- What an argument, with its value, adds to a request. -/
inductive Piece where
  | page (text : Text)
  | value (name text : Text)
  | switch
  | help
  | wrong
  | leftOver
  deriving DecidableEq, Repr

/-- Pieces in order. The first operand is the page, and dashes beside it are part of it. -/
def pieces : (hasPage : Bool) → List Token → List Piece
  | _, [] => []
  | false, .operand s :: .dashes :: rest => .page s :: pieces true rest
  | false, .operand s :: rest => .page s :: pieces true rest
  | true, .operand _ :: rest => .leftOver :: pieces true rest
  | false, .dashes :: rest => pieces false rest
  | true, .dashes :: rest => .leftOver :: pieces true rest
  | hasPage, .unknown :: rest => .leftOver :: pieces hasPage rest
  | hasPage, .option name .valued (some v) :: rest => .value name v.2 :: pieces hasPage rest
  | hasPage, .option name .valued none :: .operand s :: rest => .value name s :: pieces hasPage rest
  | _, .option _ .valued none :: _ => [.wrong]
  | hasPage, .option _ .switch none :: rest => .switch :: pieces hasPage rest
  | _, .option _ .switch (some _) :: _ => [.wrong]
  | _, .option _ .help tied :: _ => [if asksHelp tied then .help else .wrong]

/-- Why reading stops before the end. -/
inductive Stop where
  | help | misuse
  deriving DecidableEq, Repr

/-- A request under way. -/
structure Draft where
  request : Request
  hasPage : Bool
  hasLeftOver : Bool

def Draft.add (d : Draft) : Piece → Except Stop Draft
  | .page s => .ok { d with request := { d.request with page := s }, hasPage := true }
  | .switch => .ok { d with request := { d.request with isWatching := true } }
  | .help => .error .help
  | .wrong => .error .misuse
  | .leftOver => .ok { d with hasLeftOver := true }
  | .value name s =>
    if name = "--root" then .ok { d with request := { d.request with root := s } }
    else if name = "--url" then .ok { d with request := { d.request with url := some s } }
    else if name = "--report" then .ok { d with request := { d.request with endpoint := some s } }
    else if name = "--action" then
      if s = "save" ∨ s = "generate" then .ok { d with request := { d.request with action := s } }
      else .error .misuse
    else match Number.decimal s with
      | .ok t => .ok { d with request := { d.request with timeout := t } }
      | .error _ => .error .misuse

/-- The request that arguments make if none is given. -/
def Draft.start (s : Settings) : Draft :=
  ⟨⟨[], s.documentRoot, none, none, "save", s.fetchTimeout, false⟩, false, false⟩

def readScan (s : Settings) (args : List Text) : Arguments :=
  match Token.list? scanOptions args with
  | none => .misuse
  | some ts => match (pieces false ts).foldlM Draft.add (.start s) with
    | .error .help => .help
    | .error .misuse => .misuse
    | .ok d => if d.hasPage && !d.hasLeftOver then .scan d.request else .misuse

/-- What stands before the command is read first; the rest is the command's own. -/
def Arguments.read (s : Settings) : List Text → Arguments
  | [] => .misuse
  | a :: rest => match Token.of? topOptions a with
    | some (.operand name) => if name = "scan" then readScan s rest else .misuse
    | some (.option _ _ value?) => if asksHelp value? then .help else .misuse
    | some .unknown => match Arguments.read s rest with
      | .help => .help
      | _ => .misuse
    | some .dashes | none => .misuse

end StylePrune.Command
