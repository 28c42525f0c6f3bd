import StylePrune.Css.Component

/-!
Writing component values. A written list reads back as the same values: between two that would
run together an empty comment is put.
-/

set_option autoImplicit false

namespace StylePrune.Css

/-- The newline characters, which no name or string can hold as they are. -/
def escapeNewline? (c : CodePoint) : Option Text :=
  if c = '\n' then some "\\A "
  else if c = '\r' then some "\\D "
  else if c = '\x0c' then some "\\C "
  else none

def writeNameChar (c : CodePoint) : Text :=
  if isNameChar c then [c] else (escapeNewline? c).getD ['\\', c]

def writeName (s : Text) : Text := s.flatMap writeNameChar

/-- The first character of an identifier after an optional dash. -/
def writeNameStart (c : CodePoint) : Text :=
  if isNameStart c then [c]
  else if c.isDigit then '\\' :: '3' :: c :: [' ']
  else (escapeNewline? c).getD ['\\', c]

def writeIdentBody : Text → Text
  | [] => []
  | c :: s => writeNameStart c ++ writeName s

def writeIdent : Text → Text
  | ['-'] => ['\\', '-']
  | '-' :: '-' :: s => '-' :: '-' :: writeName s
  | '-' :: s => '-' :: writeIdentBody s
  | s => writeIdentBody s

def writeStringChar (c : CodePoint) : Text :=
  if c = '"' ∨ c = '\\' then ['\\', c] else (escapeNewline? c).getD [c]

def writeUrlChar (c : CodePoint) : Text :=
  if c = '\'' ∨ c = '"' ∨ c = '\\' ∨ c = ' ' ∨ c = '(' ∨ c = ')' then ['\\', c]
  else if c = '\t' then "\\9 "
  else (escapeNewline? c).getD [c]

/-- In a unit that would read as an exponent the letter is written as an escaped small `e`. -/
def writeUnit (u : Text) : Text :=
  match u with
  | c :: s =>
    if (c = 'e' ∨ c = 'E') ∧ (s = [] ∨ s.head? = some (.char '-')) then
      "\\65 " ++ writeName s
    else writeIdent u
  | [] => []

def TokenError.write : TokenError → Text
  | .badString => "\"[bad string]\n"
  | .badUrl => "url([bad url])"
  | .stringAtEnd | .urlAtEnd => []
  | .unmatched b => [b.closer]

def Leaf.write : Leaf → Text
  | .whitespace s => s
  | .comment s => "/*" ++ s ++ "*/"
  | .ident n => writeIdent n
  | .atKeyword n => '@' :: writeIdent n
  | .hash n isIdent => '#' :: if isIdent then writeIdent n else writeName n
  | .string v closed => .char '"' :: v.flatMap writeStringChar ++ if closed then [.char '"'] else []
  | .url v closed => "url(" ++ v.flatMap writeUrlChar ++ if closed then [CodePoint.char ')'] else []
  | .number r => r
  | .percentage r => r ++ [.char '%']
  | .dimension r u => r ++ writeUnit u
  | .unicodeRange low high =>
    "U+" ++ Text.hexOfNat low ++ if low = high then [] else .char '-' :: Text.hexOfNat high
  | .literal s => s
  | .error e => e.write

/-- What decides whether two neighbours run together. A literal is its own kind. -/
inductive Kind where
  | ident | atKeyword | hash | function | url | number | percentage | dimension | unicodeRange
  | parentheses
  | literal (s : Text)
  | other
  deriving DecidableEq, Repr

def Component.kind : Component → Kind
  | .leaf _ (.ident _) => .ident
  | .leaf _ (.atKeyword _) => .atKeyword
  | .leaf _ (.hash ..) => .hash
  | .leaf _ (.url ..) => .url
  | .leaf _ (.number _) => .number
  | .leaf _ (.percentage _) => .percentage
  | .leaf _ (.dimension ..) => .dimension
  | .leaf _ (.unicodeRange ..) => .unicodeRange
  | .leaf _ (.literal s) => .literal s
  | .leaf .. => .other
  | .function .. => .function
  | .block _ .round _ => .parentheses
  | .block .. => .other

namespace Kind

/-- Kinds that begin with a name. -/
def startsName (k : Kind) : Bool := k = .ident || k = .function || k = .url

def isNumeric (k : Kind) : Bool := k = .number || k = .percentage || k = .dimension

/-- Kinds that end with a name. -/
def endsName (k : Kind) : Bool := k = .ident || k = .atKeyword || k = .hash || k = .dimension

/-- Pairs that read differently when written side by side. -/
def joins (a b : Kind) : Bool :=
  ((a.endsName || a = .literal "#" || a = .literal "-" || a = .number) &&
    (b.startsName || b.isNumeric || b = .unicodeRange)) ||
  (a.endsName && (b = .literal "-" || b = .literal "-->")) ||
  ((a = .unicodeRange || a = .literal "." || a = .literal "+") && b.isNumeric) ||
  (a = .literal "@" && (b.startsName || b = .unicodeRange || b = .literal "-")) ||
  (a = .unicodeRange && (b = .ident || b = .function || b = .literal "?")) ||
  ((a = .literal "$" || a = .literal "*" || a = .literal "^" || a = .literal "~" || a = .literal "|") &&
    b = .literal "=") ||
  (a = .ident && b = .parentheses) ||
  (a = .literal "|" && b = .literal "|") ||
  (a = .literal "/" && b = .literal "*")

end Kind

def Component.startsWithNewline : Component → Bool
  | .leaf _ (.whitespace ('\n' :: _)) => true
  | _ => false

/-- What goes between two neighbours. A stray backslash is followed by a newline. -/
def separator (before after : Component) : Text :=
  if before.kind.joins after.kind then "/**/"
  else if before.isMark "\\" && !after.startsWithNewline then ['\n']
  else []

/-- A function whose last argument, or that of the function there, was cut off inside a string. -/
def Component.endsInString : Component → Bool
  | .function _ _ args => lastEndsInString args
  | .leaf _ (.error .stringAtEnd) => true
  | _ => false
where
  lastEndsInString : List Component → Bool
    | [] => false
    | [c] => c.endsInString
    | _ :: c :: cs => lastEndsInString (c :: cs)

mutual
def Component.write : Component → Text
  | .leaf _ t => t.write
  | .block _ b cs => b.opener :: writeAll cs ++ [b.closer]
  | .function p name args =>
    writeIdent name ++ .char '(' :: writeAll args ++
      if (Component.function p name args).endsInString then [] else [.char ')']

def writeAll : List Component → Text
  | [] => []
  | c :: cs => c.write ++ writeAfter c cs

/-- The components that follow `before`. -/
def writeAfter (before : Component) : List Component → Text
  | [] => []
  | c :: cs => separator before c ++ c.write ++ writeAfter c cs
end

end StylePrune.Css
