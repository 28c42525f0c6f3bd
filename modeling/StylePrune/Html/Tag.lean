import StylePrune.Html.Reference
import StylePrune.Text.Blank
import StylePrune.Text.Lowercase

/-!
Start tags. A name, attributes with or without values, and an end; between attributes stand blanks
and slashes, and a quote that is not closed begins no value.
-/

set_option autoImplicit false

namespace StylePrune.Html

/-- Where reading stands: the character just read and the text ahead. -/
structure Cursor where
  last : CodePoint
  ahead : Text
  deriving DecidableEq, Repr

namespace Cursor

/-- Moves over `n` characters. -/
def advance : Nat → Cursor → Cursor
  | n + 1, ⟨_, c :: s⟩ => advance n ⟨c, s⟩
  | _, p => p

/-- Moves over characters of a class. -/
def skipWhile (p : CodePoint → Bool) (c : Cursor) : Cursor := c.advance (c.ahead.takeWhile p).length

end Cursor

def isQuote (c : CodePoint) : Bool := c == '\'' || c == '"'

/-- A tag's name ends at a blank of ASCII, a slash, the tag's end or NUL. -/
def isTagNameChar (c : CodePoint) : Bool :=
  !(c == '\t' || c == '\n' || c == '\r' || c == '\x0c' || c == ' ' || c == '/' || c == '>' || c == '\x00')

def isAttributeNameChar (c : CodePoint) : Bool := !(Text.isBlank c || c == '/' || c == '=' || c == '>')

def isBareChar (c : CodePoint) : Bool := !(Text.isBlank c || c == '>')

/-- Length of what separates attributes: blanks, and slashes that do not end the tag. -/
def separatorLength : Text → Nat
  | '/' :: '>' :: _ => 0
  | c :: s => if Text.isBlank c || c == '/' then separatorLength s + 1 else 0
  | [] => 0

/-- The quoted text after an opening quote, if it is closed. -/
def quoted? : Text → Option Text
  | q :: s => if isQuote q then (Text.cutAt? [q] s).map Prod.fst else none
  | [] => none

/-- A value and the length of all that belongs to it: the equals signs, the blanks around them, the
value. Before an unclosed quote the value is empty if a blank stands there, and if not, it begins with
the last of several equals signs. -/
def value? (s : Text) : Option (Text × Nat) :=
  let before := (s.takeWhile Text.isBlank).length
  let signs := ((s.drop before).takeWhile (· = .char '=')).length
  if signs = 0 then none
  else
    let rest := s.drop (before + signs)
    let blanks := (rest.takeWhile Text.isBlank).length
    let body := rest.drop blanks
    match quoted? body with
    | some v => some (v, before + signs + blanks + v.length + 2)
    | none =>
      if !(body.head?.elim false isQuote) then
        let v := body.takeWhile isBareChar
        some (v, before + signs + blanks + v.length)
      else if blanks ≠ 0 then some ([], before + signs + blanks - 1)
      else if 1 < signs then
        let v := .char '=' :: body.takeWhile isBareChar
        some (v, before + signs - 1 + v.length)
      else none

/-- An attribute begins after a quote, a blank or a slash. Its name is in lower case, its value as written. -/
def attribute? (p : Cursor) : Option ((Text × Text) × Cursor) :=
  match p.ahead with
  | c :: s =>
    if (isQuote p.last || Text.isBlank p.last || p.last == '/') && !(Text.isBlank c || c == '/' || c == '>') then
      let name := c :: s.takeWhile isAttributeNameChar
      let p := p.advance name.length
      let v := (value? p.ahead).getD ([], 0)
      let p := p.advance v.2
      some ((Text.lower name, v.1), p.advance (separatorLength p.ahead))
    else none
  | [] => none

/-- Attributes as far as there are any. -/
def attributes (p : Cursor) : List (Text × Text) × Cursor :=
  match attribute? p with
  | some (a, q) =>
    if _h : q.ahead.length < p.ahead.length then
      let r := attributes q
      (a :: r.1, r.2)
    else ([], p)
  | none => ([], p)
termination_by p.ahead.length

/-- What a text that begins like a start tag is. -/
inductive StartTag where
  | whole (name : Text) (attributes : List (Text × Text)) (closed : Bool) (rest : Text)
  /-- The text ends within the tag. -/
  | incomplete
  /-- No tag after all, up to `rest`. -/
  | plain (rest : Text)
  deriving DecidableEq, Repr

/-- Attributes with the references in their values replaced. -/
def resolveValues : List (Text × Text) → Except Number.TooLong (List (Text × Text))
  | [] => .ok []
  | a :: as => do
    let v ← resolveReferences a.2
    let rest ← resolveValues as
    return (a.1, v) :: rest

/-- Reads what follows an opening angle bracket; its first character is a letter. -/
def StartTag.read (s : Text) : Except Number.TooLong StartTag :=
  let name := s.takeWhile isTagNameChar
  let p := Cursor.advance name.length ⟨'<', s⟩
  let r := attributes (p.advance (separatorLength p.ahead))
  match r.2.ahead with
  | [] => .ok .incomplete
  | '>' :: rest => (resolveValues r.1).map fun as => .whole (Text.lower name) as false rest
  | '/' :: '>' :: rest => (resolveValues r.1).map fun as => .whole (Text.lower name) as true rest
  | c :: rest =>
    if c.isAlpha || c == '=' || c == '/' then .ok .incomplete
    else (resolveValues r.1).map fun _ => .plain (c :: rest)

end StylePrune.Html
