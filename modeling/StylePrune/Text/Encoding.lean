import StylePrune.Text.Utf8

/-!
Text in one of the encodings a JSON body may have. Which one it is shows in its first bytes, since a
JSON text begins with a character of ASCII. Half of a surrogate pair that stands alone is taken as it is.
-/

set_option autoImplicit false

namespace StylePrune

/-- `big` says that the most significant byte of a unit comes first. -/
inductive Encoding where
  | utf8
  | utf16 (big : Bool)
  | utf32 (big : Bool)
  deriving DecidableEq, Repr

namespace Encoding

/-- The encoding of a text and its bytes without a mark at their start. -/
def detect : Bytes → Encoding × Bytes
  | 0 :: 0 :: 0xFE :: 0xFF :: bs => (.utf32 true, bs)
  | 0xFF :: 0xFE :: 0 :: 0 :: bs => (.utf32 false, bs)
  | 0xFE :: 0xFF :: bs => (.utf16 true, bs)
  | 0xFF :: 0xFE :: bs => (.utf16 false, bs)
  | 0xEF :: 0xBB :: 0xBF :: bs => (.utf8, bs)
  | [a, b] => (if a = 0 then .utf16 true else if b = 0 then .utf16 false else .utf8, [a, b])
  | a :: b :: c :: d :: bs =>
    (if a = 0 then (if b = 0 then .utf32 true else .utf16 true)
      else if b = 0 then (if c = 0 ∧ d = 0 then .utf32 false else .utf16 false)
      else .utf8, a :: b :: c :: d :: bs)
  | bs => (.utf8, bs)

/-- Units of two bytes. -/
def pairs? (big : Bool) : Bytes → Option (List Nat)
  | [] => some []
  | a :: b :: bs => (pairs? big bs).map
      ((if big then a.toNat * 0x100 + b.toNat else b.toNat * 0x100 + a.toNat) :: ·)
  | [_] => none

/-- Code points of units; half of a pair without the other stays what it is. -/
def ofUnits16 : List Nat → Text
  | n :: m :: ns =>
    if CodePoint.isHigh n && CodePoint.isLow m then .ofHalves n m :: ofUnits16 ns
    else .ofNat n :: ofUnits16 (m :: ns)
  | [n] => [.ofNat n]
  | [] => []

def ofUnits32? (big : Bool) : Bytes → Option Text
  | [] => some []
  | a :: b :: c :: d :: bs =>
    let value (x y z w : UInt8) : Nat := ((x.toNat * 0x100 + y.toNat) * 0x100 + z.toNat) * 0x100 + w.toNat
    let n := if big then value a b c d else value d c b a
    if n ≤ 0x10FFFF then (ofUnits32? big bs).map (.ofNat n :: ·) else none
  | _ => none

def decode? (e : Encoding) (bs : Bytes) : Option Text :=
  match e with
  | .utf8 => Utf8.decodeLenient? bs
  | .utf16 big => (pairs? big bs).map ofUnits16
  | .utf32 big => ofUnits32? big bs

/-- The text of bytes whose encoding shows in them. -/
def decodeDetected? (bs : Bytes) : Option Text :=
  let d := detect bs
  decode? d.1 d.2

end Encoding
end StylePrune
