import StylePrune.Text.Basic

/-!
How long a whole number may be, in sheets, documents and settings alike.
-/

set_option autoImplicit false

namespace StylePrune.Number

/-- Digits that a whole number may have; leading zeros count. -/
def maxDigits : Nat := 4300

/-- A whole number that has more. -/
structure TooLong where
  digits : Nat
  deriving DecidableEq, Repr

def TooLong.message (t : TooLong) : Text :=
  "Exceeds the limit (" ++ Text.ofNat maxDigits ++ " digits) for integer string conversion: value has " ++
    Text.ofNat t.digits ++ " digits; use sys.set_int_max_str_digits() to increase the limit"

/-- A number of so many digits, if it is too long. -/
def tooLong? (digits : Nat) : Option TooLong := if maxDigits < digits then some ⟨digits⟩ else none

end StylePrune.Number
