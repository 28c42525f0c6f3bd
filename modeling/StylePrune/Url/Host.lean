import StylePrune.Text.Basic

/-!
Which hosts may stand in square brackets: addresses of IP version 6 and of versions to come.
-/

set_option autoImplicit false

namespace StylePrune.Url

/-- An octet in decimal, without a leading zero. -/
def isOctet (s : Text) : Bool :=
  s ≠ [] && s.length ≤ 3 && s.all CodePoint.isDigit && (s == [.char '0'] || s.head? != some (.char '0')) &&
  Text.digitsValue 10 s ≤ 255

/-- Four octets with dots between them. -/
def isDottedAddress (s : Text) : Bool :=
  let parts := Text.splitOn '.' s
  parts.length == 4 && parts.all isOctet

def isHextet (s : Text) : Bool := s ≠ [] && s.length ≤ 4 && s.all Text.isHexDigit

/-- The parts between colons; a dotted address at the end counts as two. -/
def colonParts? (s : Text) : Option (List Text) :=
  let parts := Text.splitOn ':' s
  match parts.getLast? with
  | some l =>
    if parts.length < 3 then none
    else if l.contains '.' then
      if isDottedAddress l then some (parts.dropLast ++ [[.char '0'], [.char '0']]) else none
    else some parts
  | none => none

/-- Eight hextets, or fewer around one gap of two colons; a gap at an end leaves two empty parts. -/
def isHextetList (parts : List Text) : Bool :=
  let inner := (parts.drop 1).dropLast
  let firstBare := parts.head? == some []
  let lastBare := parts.getLast? == some []
  match inner.filter (· = []) with
  | [] => parts.length == 8 && parts.all isHextet
  | [_] =>
    let high := inner.takeWhile (· ≠ [])
    let low := inner.drop (high.length + 1)
    let high := if firstBare then high else parts.headD [] :: high
    let low := if lastBare then low else low ++ [parts.getLastD []]
    !(firstBare && high ≠ []) && !(lastBare && low ≠ []) && high.length + low.length ≤ 7 &&
      (high ++ low).all isHextet
  | _ => false

/-- A version 6 address, with a zone after a percent sign if there is one. -/
def isColonAddress (s : Text) : Bool :=
  let address := match Text.cutAt? ['%'] s with
    | some (a, zone) => if zone = [] || zone.contains '%' then none else some a
    | none => some s
  match address with
  | some a => !s.contains '/' && a ≠ [] && match colonParts? a with
    | some parts => parts.length ≤ 9 && isHextetList parts
    | none => false
  | none => false

/-- `v`, a version in hexadecimal, a dot, and at least one more character. -/
def isFutureAddress (s : Text) : Bool :=
  match Text.cutAt? ['.'] (s.drop 1) with
  | some (version, rest) => version ≠ [] && version.all Text.isHexDigit && rest ≠ []
  | none => false

end StylePrune.Url
