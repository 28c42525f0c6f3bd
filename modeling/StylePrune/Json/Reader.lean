import StylePrune.Json
import StylePrune.Number.Limit

/-!
Reading JSON text. Escapes can name half of a surrogate pair, and then the text has it. Beyond the standard, the words `NaN`, `Infinity` and `-Infinity` are numbers. Of a
field that comes again the first place and the last value count.
-/

set_option autoImplicit false

namespace StylePrune.Json

def isSpace (c : CodePoint) : Bool := c == ' ' || c == '\t' || c == '\n' || c == '\r'

def skipSpace (s : Text) : Text := s.dropWhile isSpace

/-- Four hexadecimal digits. -/
def takeUnit? : Text → Option (Nat × Text)
  | a :: b :: c :: d :: s =>
    if [a, b, c, d].all Text.isHexDigit then some (Text.digitsValue 16 [a, b, c, d], s) else none
  | _ => none

/-- What follows `\u`: one unit, or two that make a surrogate pair. -/
def takeCodePoint? (s : Text) : Option (CodePoint × Text) :=
  match takeUnit? s with
  | none => none
  | some (high, r) =>
    match (if CodePoint.isHigh high then (Text.after? "\\u" r).bind takeUnit? else none) with
    | some (low, r') =>
      some (if CodePoint.isLow low then (.ofHalves high low, r') else (.ofNat high, r))
    | none => some (.ofNat high, r)

def simpleEscape? (c : CodePoint) : Option CodePoint :=
  if c = '"' then some '"'
  else if c = '\\' then some '\\'
  else if c = '/' then some '/'
  else if c = 'b' then some '\x08'
  else if c = 'f' then some '\x0c'
  else if c = 'n' then some '\n'
  else if c = 'r' then some '\r'
  else if c = 't' then some '\t'
  else none

/-- The inside of a string up to its closing quote. `fuel` bounds its length. -/
def takeString? : (fuel : Nat) → Text → Option (Text × Text)
  | 0, _ => none
  | _, [] => none
  | n + 1, c :: s =>
    if c = '"' then some ([], s)
    else if c = '\\' then
      match s with
      | [] => none
      | 'u' :: s => match takeCodePoint? s with
        | some (d, r) => (takeString? n r).map fun t => (d :: t.1, t.2)
        | none => none
      | e :: s => match simpleEscape? e with
        | some d => (takeString? n s).map fun t => (d :: t.1, t.2)
        | none => none
    else if c.toNat < 0x20 then none
    else (takeString? n s).map fun t => (c :: t.1, t.2)

def digits (s : Text) : Text × Text := (s.takeWhile CodePoint.isDigit, s.dropWhile CodePoint.isDigit)

/-- The digits before a point: no leading zero. -/
def takeWhole? : Text → Option (Text × Text)
  | '0' :: s => some (['0'], s)
  | s => let d := digits s; if d.1 = [] then none else some d

def takeFraction (s : Text) : Text × Text :=
  match s with
  | '.' :: r => let d := digits r; if d.1 = [] then ([], s) else ('.' :: d.1, d.2)
  | _ => ([], s)

def takeExponent (s : Text) : Text × Text :=
  match s with
  | c :: r =>
    if c = 'e' ∨ c = 'E' then
      let sign : Text × Text := match r with
        | '+' :: r => (['+'], r)
        | '-' :: r => (['-'], r)
        | r => ([], r)
      let d := digits sign.2
      if d.1 = [] then ([], s) else (c :: sign.1 ++ d.1, d.2)
    else ([], s)
  | [] => ([], [])

/-- How deep values may stand in each other. There are a thousand levels of calls, and those that lead to the reader
take some of them. -/
def maxNesting : Nat := 985

/-- What stands deeper than that. -/
inductive TooDeep where
  | array | object
  deriving DecidableEq, Repr

def TooDeep.message : TooDeep → Text
  | .array => "maximum recursion depth exceeded while decoding a JSON array from a unicode string"
  | .object => "maximum recursion depth exceeded while decoding a JSON object from a unicode string"

/-- Why a text is no document, or none that can be read. -/
inductive Fault where
  | illFormed
  | tooLong (t : Number.TooLong)
  | tooDeep (t : TooDeep)
  deriving DecidableEq, Repr

def orIllFormed {α : Type} : Option α → Except Fault α
  | some a => .ok a
  | none => .error .illFormed

/-- A number from after its sign on. -/
def takeUnsigned (sign s : Text) : Except Fault (Json × Text) :=
  match takeWhole? s with
  | none => .error .illFormed
  | some whole =>
    let fraction := takeFraction whole.2
    let exponent := takeExponent fraction.2
    if fraction.1 ≠ [] ∨ exponent.1 ≠ [] then
      .ok (.float (sign ++ whole.1 ++ fraction.1 ++ exponent.1), exponent.2)
    else match Number.tooLong? whole.1.length with
    | some t => .error (.tooLong t)
    | none =>
      let n := Text.digitsValue 10 whole.1
      .ok (.int (if sign = [] then n else -(n : Int)), exponent.2)

def takeNumber : Text → Except Fault (Json × Text)
  | '-' :: s => takeUnsigned ['-'] s
  | s => takeUnsigned [] s

/-- The words that are values. -/
def constants : List (Text × Json) :=
  [("null", .null), ("true", .bool true), ("false", .bool false), ("NaN", .float "NaN"),
    ("Infinity", .float "Infinity"), ("-Infinity", .float "-Infinity")]

def takeConstant? (s : Text) : Option (Json × Text) :=
  constants.findSome? fun (w, v) => (Text.after? w s).map (v, ·)

mutual
/-- A value at the start of a text. `fuel` bounds the steps, two for each character at most, and values may stand in it
`nesting` deep. -/
def takeValue : (fuel nesting : Nat) → Text → Except Fault (Json × Text)
  | 0, _, _ => .error .illFormed
  | n + 1, nesting, s => match s with
    | '"' :: r => (orIllFormed (takeString? (r.length + 1) r)).map fun t => (.string t.1, t.2)
    | '[' :: r => match nesting with
      | 0 => .error (.tooDeep .array)
      | nesting + 1 => match skipSpace r with
        | ']' :: r => .ok (.array [], r)
        | r => (takeItems n nesting r).map fun t => (.array t.1, t.2)
    | '\x7b' :: r => match nesting with
      | 0 => .error (.tooDeep .object)
      | nesting + 1 => match skipSpace r with
        | '\x7d' :: r => .ok (.object [], r)
        | r => (takeFields n nesting r).map fun t => (.object (Table.ofList t.1).entries, t.2)
    | s => match takeConstant? s with
      | some t => .ok t
      | none => takeNumber s

/-- The items of an array up to its closing bracket; at least one. -/
def takeItems : (fuel nesting : Nat) → Text → Except Fault (List Json × Text)
  | 0, _, _ => .error .illFormed
  | n + 1, nesting, s => match takeValue n nesting s with
    | .error f => .error f
    | .ok (v, r) => match skipSpace r with
      | ']' :: r => .ok ([v], r)
      | ',' :: r => (takeItems n nesting (skipSpace r)).map fun t => (v :: t.1, t.2)
      | _ => .error .illFormed

/-- The fields of an object up to its closing brace; at least one. -/
def takeFields : (fuel nesting : Nat) → Text → Except Fault (List (Text × Json) × Text)
  | 0, _, _ => .error .illFormed
  | n + 1, nesting, s => match s with
    | '"' :: r => match takeString? (r.length + 1) r with
      | none => .error .illFormed
      | some (name, r) => match skipSpace r with
        | ':' :: r => match takeValue n nesting (skipSpace r) with
          | .error f => .error f
          | .ok (v, r) => match skipSpace r with
            | '\x7d' :: r => .ok ([(name, v)], r)
            | ',' :: r => (takeFields n nesting (skipSpace r)).map fun t => ((name, v) :: t.1, t.2)
            | _ => .error .illFormed
        | _ => .error .illFormed
    | _ => .error .illFormed
end

/-- The value of a document: nothing but space may stand around it. -/
def parse (s : Text) : Except Fault Json :=
  match takeValue (2 * s.length + 1) maxNesting (skipSpace s) with
  | .error f => .error f
  | .ok (v, r) => if skipSpace r = [] then .ok v else .error .illFormed

end StylePrune.Json
