import StylePrune.Json

/-!
Writing JSON text with one item per line. Characters beyond ASCII stand as they are, or escaped in a text
that is to be sent.
-/

set_option autoImplicit false

namespace StylePrune.Json

/-- An escape of four hexadecimal digits. -/
def writeUnit (n : Nat) : Text := "\\u" ++ Text.paddedHex 4 n

def writeChar (c : CodePoint) : Text :=
  if c = '"' then "\\\""
  else if c = '\\' then "\\\\"
  else if c = '\n' then "\\n"
  else if c = '\r' then "\\r"
  else if c = '\t' then "\\t"
  else if c = '\x0c' then "\\f"
  else if c = '\x08' then "\\b"
  else if c.toNat < 0x20 then writeUnit c.toNat
  else [c]

def writeString (s : Text) : Text := .char '"' :: s.flatMap writeChar ++ [.char '"']

/-- Four spaces for each level. -/
def newline (depth : Nat) : Text := .char '\n' :: List.replicate (4 * depth) ' '

mutual
/-- A value whose first line stands at the given depth. -/
def write (depth : Nat) : Json → Text
  | .null => "null"
  | .bool b => if b then "true" else "false"
  | .int n => Text.ofInt n
  | .float s => s
  | .string s => writeString s
  | .array [] => "[]"
  | .array (v :: vs) =>
    .char '[' :: newline (depth + 1) ++ write (depth + 1) v ++ writeItems (depth + 1) vs ++ newline depth ++
      [.char ']']
  | .object [] => "\x7b\x7d"
  | .object ((k, v) :: fs) =>
    .char '\x7b' :: newline (depth + 1) ++ writeString k ++ ": " ++ write (depth + 1) v ++
      writeFields (depth + 1) fs ++ newline depth ++ [CodePoint.char '\x7d']

/-- Items that follow another. -/
def writeItems (depth : Nat) : List Json → Text
  | [] => []
  | v :: vs => .char ',' :: newline depth ++ write depth v ++ writeItems depth vs

/-- Fields that follow another. -/
def writeFields (depth : Nat) : List (Text × Json) → Text
  | [] => []
  | (k, v) :: fs => .char ',' :: newline depth ++ writeString k ++ ": " ++ write depth v ++ writeFields depth fs
end

/-- A document. -/
def render (v : Json) : Text := write 0 v

/-- One unit of UTF-16 for each escape: a character beyond the first 65536 has two, and so does not differ
from two halves. -/
def escapeBeyondAscii (c : CodePoint) : Text :=
  let n := c.toNat
  if n < 0x80 then [c]
  else if n < 0x10000 then writeUnit n
  else writeUnit (0xD800 + (n - 0x10000) / 0x400) ++ writeUnit (0xDC00 + (n - 0x10000) % 0x400)

/-- A document of ASCII alone, which can be spelled whatever texts it holds. -/
def renderAscii (v : Json) : Text := v.render.flatMap escapeBeyondAscii

end StylePrune.Json
