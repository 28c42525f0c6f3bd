import StylePrune.Text.Printable

/-!
A text in quotes, as messages show it.
-/

set_option autoImplicit false

namespace StylePrune.Text

/-- A character between quotes `q`. One that does not print is shown by its number. -/
def quotedChar (q c : CodePoint) : Text :=
  if c = '\\' ∨ c = q then ['\\', c]
  else if c = '\n' then "\\n"
  else if c = '\r' then "\\r"
  else if c = '\t' then "\\t"
  else if isPrintable c then [c]
  else if c.toNat < 0x100 then "\\x" ++ paddedHex 2 c.toNat
  else if c.toNat < 0x10000 then "\\u" ++ paddedHex 4 c.toNat
  else "\\U" ++ paddedHex 8 c.toNat

/-- Single quotes, or double ones around a text that holds a single quote and no double one. -/
def quoted (s : Text) : Text :=
  let q : CodePoint := if s.contains '\'' && !s.contains '"' then '"' else '\''
  q :: s.flatMap (quotedChar q) ++ [q]

end StylePrune.Text
