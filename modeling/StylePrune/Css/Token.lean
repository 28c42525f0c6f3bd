import StylePrune.Text.Basic

/-!
Positions and tokens of a stylesheet. A leaf stands alone; brackets and functions open and close
a level of their own.
-/

set_option autoImplicit false

namespace StylePrune.Css

/-- A line and a column, both from 1; the column counts characters. -/
structure Position where
  line : Nat
  column : Nat
  deriving DecidableEq, Repr

namespace Position

def first : Position := ⟨1, 1⟩

def step (p : Position) (c : CodePoint) : Position :=
  if c = '\n' then ⟨p.line + 1, 1⟩ else ⟨p.line, p.column + 1⟩

/-- Where one stands after a text. -/
def past (p : Position) (s : Text) : Position := s.foldl step p

@[simp] theorem past_nil (p : Position) : p.past [] = p := rfl

@[simp] theorem past_append (p : Position) (s t : Text) : p.past (s ++ t) = (p.past s).past t := by
  simp [past]

end Position

inductive Bracket where
  | curly | square | round
  deriving DecidableEq, Repr

def Bracket.opener : Bracket → CodePoint
  | .curly => '\x7b'
  | .square => '['
  | .round => '('

def Bracket.closer : Bracket → CodePoint
  | .curly => '\x7d'
  | .square => ']'
  | .round => ')'

/-- What can go wrong in a token. -/
inductive TokenError where
  | badString | badUrl | stringAtEnd | urlAtEnd
  | unmatched (b : Bracket)
  deriving DecidableEq, Repr

def TokenError.message : TokenError → Text
  | .badString => "Bad string token"
  | .badUrl => "bad URL token"
  | .stringAtEnd => "EOF in string"
  | .urlAtEnd => "EOF in URL"
  | .unmatched b => "Unmatched " ++ [b.closer]

/-- A token without content of its own. Names and values are held unescaped, numbers as written;
`closed` is false of a string or URL that the end of the sheet cut off. -/
inductive Leaf where
  | whitespace (text : Text)
  | comment (text : Text)
  | ident (name : Text)
  | atKeyword (name : Text)
  | hash (name : Text) (isIdent : Bool)
  | string (value : Text) (closed : Bool)
  | url (value : Text) (closed : Bool)
  | number (repr : Text)
  | percentage (repr : Text)
  | dimension (repr unit : Text)
  | unicodeRange (low high : Nat)
  | literal (text : Text)
  | error (e : TokenError)
  deriving DecidableEq, Repr

inductive Lexeme where
  | leaf (t : Leaf)
  | opening (b : Bracket)
  | closing (b : Bracket)
  | function (name : Text)
  deriving DecidableEq, Repr

def isSpace (c : CodePoint) : Bool := c == ' ' || c == '\n' || c == '\t'

def isNameStart (c : CodePoint) : Bool := c.isAlpha || c == '_' || 0x7F < c.toNat

def isNameChar (c : CodePoint) : Bool := isNameStart c || c.isDigit || c == '-'

/-- Carriage returns, alone or before a line feed, and form feeds become line feeds. -/
def normalizeNewlines : Text → Text
  | [] => []
  | '\r' :: '\n' :: s => '\n' :: normalizeNewlines s
  | c :: s => (if c = '\r' ∨ c = '\x0c' then '\n' else c) :: normalizeNewlines s

/-- The reader's view of a sheet: no NUL, one kind of newline. -/
def preprocess (s : Text) : Text :=
  normalizeNewlines (s.map fun (c : CodePoint) => if c = '\x00' then '\uFFFD' else c)

end StylePrune.Css
