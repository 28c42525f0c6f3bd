import StylePrune.Text.Digit

/-!
How arguments are told apart. A long option may be shortened as long as only one has that start, and
an equals sign may give its value; after two dashes alone everything is an operand.
-/

set_option autoImplicit false

namespace StylePrune.Command

/-- What an option is followed by. `help` ends the reading of arguments. -/
inductive Arity where
  | help | switch | valued
  deriving DecidableEq, Repr

/-- The options that a command knows, by name. -/
abbrev Options := List (Text × Arity)

/-- How a value is tied to its option: by an equals sign, or to a short option without one. -/
inductive Tie where
  | equals | adjacent
  deriving DecidableEq, Repr

/-- What one argument is. -/
inductive Token where
  | operand (text : Text)
  | dashes
  | unknown
  | option (name : Text) (arity : Arity) (value? : Option (Tie × Text))
  deriving DecidableEq, Repr

/-- A minus sign and digits, with a point among them or not. -/
def isNegativeNumber : Text → Bool
  | '-' :: s =>
    let s := if s.getLast? = some (.char '\n') then s.dropLast else s
    match Text.cutAt? ['.'] s with
    | none => s ≠ [] && s.all Text.isDecimalDigit
    | some (a, b) => a.all Text.isDecimalDigit && b ≠ [] && b.all Text.isDecimalDigit
  | _ => false

/-- The options that an argument can mean, each with its value. -/
def candidates (os : Options) (s : Text) : List Token :=
  let named (p : Text) (value? : Option (Tie × Text)) : List Token :=
    (os.filter fun o => Text.startsWith o.1 p).map fun o => .option o.1 o.2 value?
  if Text.startsWith s "--" then
    match Text.cutAt? ['='] s with
    | some (p, v) => named p (some (.equals, v))
    | none => named s none
  else os.filterMap fun o =>
    if o.1 = s.take 2 then some (.option o.1 o.2 (some (.adjacent, s.drop 2)))
    else if Text.startsWith o.1 s then some (.option o.1 o.2 none)
    else none

/-- `none` for an option that can mean more than one. -/
def Token.of? (os : Options) (s : Text) : Option Token :=
  let arity? (name : Text) : Option Arity := (os.find? (·.1 = name)).map Prod.snd
  if s = "--" then some .dashes
  else if s.head? ≠ some (.char '-') ∨ s = [.char '-'] then some (.operand s)
  else match arity? s with
  | some a => some (.option s a none)
  | none =>
    let tied : Option Token := do
      let cut ← Text.cutAt? ['='] s
      let a ← arity? cut.1
      return .option cut.1 a (some (.equals, cut.2))
    match tied with
    | some t => some t
    | none => match candidates os s with
      | [t] => some t
      | _ :: _ :: _ => none
      | [] => some (if isNegativeNumber s || s.contains ' ' then .operand s else .unknown)

/-- Arguments in order; after two dashes there are only operands. -/
def Token.list? (os : Options) : List Text → Option (List Token)
  | [] => some []
  | s :: rest => match Token.of? os s with
    | none => none
    | some .dashes => some (.dashes :: rest.map .operand)
    | some t => (Token.list? os rest).map (t :: ·)

/-- Does a request for help stand, given what is tied to it? Letters after a short option are more
short options; one that is not known does no harm. -/
def asksHelp : Option (Tie × Text) → Bool
  | none => true
  | some (.equals, _) => false
  | some (.adjacent, s) => go s
where
  go : Text → Bool
    | [] => true
    | 'h' :: '=' :: _ => false
    | 'h' :: s => go s
    | c :: _ => c != '-'

end StylePrune.Command
