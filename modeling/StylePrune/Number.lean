import StylePrune.Number.Limit
import StylePrune.Text.Blank
import StylePrune.Text.Digit
import StylePrune.Text.Quoted

/-!
Numbers as people write them: a sign, digits of any script with single underscores between them, and
blanks around it all.
-/

set_option autoImplicit false

namespace StylePrune

/-- A number exactly as it was written. A whole one differs in its text from one that could have had
a fraction. -/
inductive Decimal where
  | whole (n : Nat)
  | finite (negative : Bool) (digits : Nat) (exponent : Int)
  | infinite (negative : Bool)
  | notANumber
  deriving DecidableEq, Repr

namespace Number

/-- A text that does not give a number. -/
inductive Fault where
  | notWhole (text : Text)
  | tooLong (t : TooLong)
  | notDecimal (text : Text)
  deriving DecidableEq, Repr

def Fault.message : Fault → Text
  | .notWhole s => "invalid literal for int() with base 10: " ++ (Text.quoted s).take 200
  | .tooLong t => t.message
  | .notDecimal s => "could not convert string to float: " ++ Text.quoted s

/-- What may stand around a number: blanks, the information separators left out. -/
def isPadding (c : CodePoint) : Bool := Text.isBlank c && !(0x1C ≤ c.toNat && c.toNat ≤ 0x1F)

/-- Is there a minus sign? And what follows the sign. -/
def cutSign : Text → Bool × Text
  | '-' :: s => (true, s)
  | '+' :: s => (false, s)
  | s => (false, s)

/-- The digits at the start, perhaps none, and the rest. Each underscore stands between two digits. -/
def digitRun? (s : Text) : Option (List Nat × Text) :=
  let run := s.takeWhile fun c => Text.isDecimalDigit c || c == '_'
  if run = [] then some ([], s)
  else if (Text.splitOn '_' run).all (· ≠ []) then some (run.filterMap Text.decimalDigit?, s.drop run.length)
  else none

def ofDigits (ds : List Nat) : Nat := ds.foldl (fun n d => n * 10 + d) 0

def int (text : Text) : Except Fault Int :=
  let signed := cutSign (Text.trim isPadding text)
  match digitRun? signed.2 with
  | none | some ([], _) => .error (.notWhole text)
  | some (ds, rest) => match tooLong? ds.length with
    | some t => .error (.tooLong t)
    | none =>
      if rest ≠ [] then .error (.notWhole text)
      else .ok (if signed.1 then -(ofDigits ds : Int) else ofDigits ds)

/-- The exponent, if there is one, at the end of a number. -/
def exponent? : Text → Option Int
  | [] => some 0
  | c :: s =>
    let signed := cutSign s
    match digitRun? signed.2 with
    | some (d :: ds, []) =>
      if c = 'e' ∨ c = 'E' then some (if signed.1 then -(ofDigits (d :: ds) : Int) else ofDigits (d :: ds))
      else none
    | _ => none

/-- The digits after a point, if there is one, and the rest. -/
def fraction? : Text → Option (List Nat × Text)
  | '.' :: s => digitRun? s
  | s => some ([], s)

/-- A number without its sign. -/
def magnitude? (negative : Bool) (s : Text) : Option Decimal :=
  let word := Text.asciiLower s
  if word = "inf" ∨ word = "infinity" then some (.infinite negative)
  else if word = "nan" then some .notANumber
  else do
    let whole ← digitRun? s
    let fraction ← fraction? whole.2
    let e ← exponent? fraction.2
    if whole.1 = [] ∧ fraction.1 = [] then none
    else some (.finite negative (ofDigits (whole.1 ++ fraction.1)) (e - fraction.1.length))

def decimal (text : Text) : Except Fault Decimal :=
  let signed := cutSign (Text.trim isPadding text)
  match magnitude? signed.1 signed.2 with
  | some d => .ok d
  | none => .error (.notDecimal text)

end Number

namespace Decimal

def sign (negative : Bool) : Text := if negative then ['-'] else []

/-- Digits and a power of ten, which every reader of numbers takes for the same value. -/
def text : Decimal → Text
  | .whole n => Text.ofNat n
  | .finite negative digits exponent =>
    sign negative ++ Text.ofNat digits ++ .char 'e' :: Text.ofInt exponent
  | .infinite negative => sign negative ++ "Infinity"
  | .notANumber => "NaN"

/-- As a span of seconds, in whole thousandths of a second; no span is shorter than none. -/
def milliseconds : Decimal → Nat
  | .whole n => n * 1000
  | .finite false digits exponent =>
    let shift := min (exponent + 3) 9
    if 0 ≤ shift then digits * Nat.pow 10 shift.toNat else digits / Nat.pow 10 (min (-shift).toNat 400)
  | _ => 0

end Decimal
end StylePrune
