import StylePrune.Text.Blank
import StylePrune.Text.Utf8

/-!
A request as it reaches the server, and what it says of itself behind proxies.
-/

set_option autoImplicit false

namespace StylePrune.Server

structure Request where
  method : Text
  target : Text
  headers : List (Text × Text)
  body : Bytes
  client : Text
  scheme : Text
  deriving DecidableEq, Repr

namespace Request

/-- How header names are compared: without letter case, and an underscore is a dash. -/
def headerKey (name : Text) : Text := (Text.asciiLower name).map fun (c : CodePoint) => if c = '_' then '-' else c

/-- A header that is repeated is one list. -/
def header? (r : Request) (name : Text) : Option Text :=
  match r.headers.filter fun h => headerKey h.1 = headerKey name with
  | [] => none
  | hs => some (Text.joinWith ", " (hs.map Prod.snd))

/-- Bytes of a path, in which a percent sign and two hexadecimal digits stand for one. -/
def pathBytes : Text → Bytes
  | [] => []
  | '%' :: a :: b :: s =>
    if Text.isHexDigit a ∧ Text.isHexDigit b then UInt8.ofNat (Text.digitsValue 16 [a, b]) :: pathBytes s
    else Utf8.encodeChar '%' ++ pathBytes (a :: b :: s)
  | c :: s => Utf8.encodeChar c ++ pathBytes s

/-- The target without its query. -/
def path (r : Request) : Text :=
  Utf8.decodeLossy (pathBytes (r.target.takeWhile fun (c : CodePoint) => c ≠ '?' ∧ c ≠ '#'))

end Request

/-- Where one stands in a list: within quotes, and behind a backslash there. -/
inductive Quoting where
  | outside | inside | escaped
  deriving DecidableEq, Repr

/-- Cuts at commas that are not quoted; `part` is the piece under way. After a last comma nothing
more is meant. -/
def listParts (q : Quoting) (part : Text) : Text → List Text
  | [] => if part = [] then [] else [part]
  | c :: s => match q with
    | .escaped => listParts .inside (part ++ [c]) s
    | .inside =>
      if c = '\\' then listParts .escaped part s
      else listParts (if c = '"' then .outside else .inside) (part ++ [c]) s
    | .outside =>
      if c = ',' then part :: listParts .outside [] s
      else listParts (if c = '"' then .inside else .outside) (part ++ [c]) s

/-- An item without the quotes around it. -/
def unquoted (s : Text) : Text :=
  if 2 ≤ s.length ∧ s.head? = some (.char '"') ∧ s.getLast? = some (.char '"') then s.tail.dropLast else s

/-- The items of a header that is a list. -/
def listItems (s : Text) : List Text := (listParts .outside [] s).map fun p => unquoted (Text.strip p)

/-- What the outermost of `hops` trusted proxies says in a header; each of them adds one item. -/
def trusted? (hops : Nat) (value : Option Text) : Option Text := do
  let items := listItems (← value)
  if hops = 0 ∨ items.length < hops then none
  else
    let item ← items[items.length - hops]?
    if item = [] then none else some item

/-- The request as it was before `hops` proxies passed it on. -/
def Request.behind (hops : Nat) (r : Request) : Request :=
  { r with
    client := (trusted? hops (r.header? "X-Forwarded-For")).getD r.client
    scheme := (trusted? hops (r.header? "X-Forwarded-Proto")).getD r.scheme }

end StylePrune.Server
