import StylePrune.Number.Limit

/-!
Character references in attribute values: by number, and by the names that need no semicolon.
-/

set_option autoImplicit false

namespace StylePrune.Html

/-- Names of the characters from U+00A0 to U+00FF in order. -/
def latinNames : List Text := Text.splitOn ' ' <|
  "nbsp iexcl cent pound curren yen brvbar sect uml copy ordf laquo not shy reg macr deg plusmn sup2 " ++
  "sup3 acute micro para middot cedil sup1 ordm raquo frac14 frac12 frac34 iquest Agrave Aacute Acirc " ++
  "Atilde Auml Aring AElig Ccedil Egrave Eacute Ecirc Euml Igrave Iacute Icirc Iuml ETH Ntilde Ograve " ++
  "Oacute Ocirc Otilde Ouml times Oslash Ugrave Uacute Ucirc Uuml Yacute THORN szlig agrave aacute " ++
  "acirc atilde auml aring aelig ccedil egrave eacute ecirc euml igrave iacute icirc iuml eth ntilde " ++
  "ograve oacute ocirc otilde ouml divide oslash ugrave uacute ucirc uuml yacute thorn yuml"

/-- Names of the characters that markup is made of, and capital spellings. -/
def markupNames : List (Text × CodePoint) := [
  ("amp", '&'), ("AMP", '&'), ("lt", '<'), ("LT", '<'), ("gt", '>'), ("GT", '>'), ("quot", '"'), ("QUOT", '"'),
  ("COPY", '©'), ("REG", '®')]

def named? (name : Text) : Option CodePoint :=
  match markupNames.find? (·.1 = name) with
  | some e => some e.2
  | none => (latinNames.idxOf? name).map fun i => CodePoint.ofNat (0xA0 + i)

/-- What stands at the numbers from 0x80 to 0x9F. -/
def highControls : List Nat := [
  0x20AC, 0x81, 0x201A, 0x192, 0x201E, 0x2026, 0x2020, 0x2021, 0x2C6, 0x2030, 0x160, 0x2039, 0x152, 0x8D, 0x17D,
  0x8F, 0x90, 0x2018, 0x2019, 0x201C, 0x201D, 0x2022, 0x2013, 0x2014, 0x2DC, 0x2122, 0x161, 0x203A, 0x153, 0x9D,
  0x17E, 0x178]

/-- Numbers that no text may contain. -/
def isForbidden (n : Nat) : Bool :=
  (1 ≤ n && n ≤ 8) || n == 0xB || (0xE ≤ n && n ≤ 0x1F) || n == 0x7F || (0xFDD0 ≤ n && n ≤ 0xFDEF) ||
    0xFFFE ≤ n % 0x10000

/-- The text that a number stands for. -/
def numbered (n : Nat) : Text :=
  if n = 0 ∨ 0x10FFFF < n ∨ (0xD800 ≤ n ∧ n ≤ 0xDFFF) then ['\uFFFD']
  else if 0x80 ≤ n ∧ n ≤ 0x9F then [CodePoint.ofNat (highControls.getD (n - 0x80) 0xFFFD)]
  else if isForbidden n then []
  else [CodePoint.ofNat n]

/-- A semicolon that ends a reference belongs to it. -/
def dropSemicolon : Text → Text
  | ';' :: s => s
  | s => s

/-- A number after the number sign, and what follows it. -/
def readNumber? (s : Text) : Option (Text × Text) :=
  let decimal := s.takeWhile CodePoint.isDigit
  if decimal ≠ [] then some (numbered (Text.digitsValue 10 decimal), dropSemicolon (s.dropWhile CodePoint.isDigit))
  else match s with
  | x :: s =>
    let digits := s.takeWhile Text.isHexDigit
    if (x = 'x' ∨ x = 'X') ∧ digits ≠ [] then
      some (numbered (Text.digitsValue 16 digits), dropSemicolon (s.dropWhile Text.isHexDigit))
    else none
  | [] => none

/-- Characters that a name may have, whether or not there is such a name. -/
def isReferenceChar (c : CodePoint) : Bool :=
  !(c == '\t' || c == '\n' || c == '\x0c' || c == ' ' || c == '<' || c == '&' || c == '#' || c == ';')

/-- The longest start of `name` that is a name, of `n` characters at most and two at least. -/
def longestName? (name : Text) : Nat → Option (CodePoint × Text)
  | n + 2 => match named? (name.take (n + 2)) with
    | some c => some (c, name.drop (n + 2))
    | none => longestName? name (n + 1)
  | _ => none

/-- What stands after an ampersand: its text and what follows it. -/
def readReference? : Text → Option (Text × Text)
  | '#' :: s => readNumber? s
  | s =>
    let name := (s.take 32).takeWhile isReferenceChar
    match longestName? name name.length with
    | some (c, []) => some ([c], dropSemicolon (s.drop name.length))
    | some (c, r) => some (c :: r, s.drop name.length)
    | none => none

/-- Replaces every reference. `skip` characters belong to a reference that was just read. -/
def resolveFrom : (skip : Nat) → Text → Text
  | _, [] => []
  | skip + 1, _ :: s => resolveFrom skip s
  | 0, '&' :: s => match readReference? s with
    | some (t, r) => t ++ resolveFrom (s.length - r.length) s
    | none => '&' :: resolveFrom 0 s
  | 0, c :: s => c :: resolveFrom 0 s

/-- The first reference by a decimal number that is too long. -/
def tooLong? : Text → Option Number.TooLong
  | '&' :: '#' :: s => (Number.tooLong? (s.takeWhile CodePoint.isDigit).length).or (tooLong? s)
  | _ :: s => tooLong? s
  | [] => none

def resolveReferences (s : Text) : Except Number.TooLong Text :=
  match tooLong? s with
  | some t => .error t
  | none => .ok (resolveFrom 0 s)

end StylePrune.Html
