import StylePrune.Table

/-!
Values of a JSON document. Fields of an object keep their order and no name stands twice.
-/

set_option autoImplicit false

namespace StylePrune

/-- `float` keeps a number as it was written: one with a fraction or an exponent, or no number at
all or an infinite one. -/
inductive Json where
  | null
  | bool (b : Bool)
  | int (n : Int)
  | float (repr : Text)
  | string (s : Text)
  | array (items : List Json)
  | object (fields : List (Text × Json))
  deriving Repr

namespace Json

def string? : Json → Option Text
  | .string s => some s
  | _ => none

def array? : Json → Option (List Json)
  | .array vs => some vs
  | _ => none

def fields? : Json → Option (List (Text × Json))
  | .object fs => some fs
  | _ => none

/-- The value of a field. -/
def field? (fields : List (Text × Json)) (name : Text) : Option Json :=
  (fields.find? (·.1 = name)).map Prod.snd

end Json
end StylePrune
