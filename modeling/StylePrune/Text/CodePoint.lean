/-!
What texts are made of: characters, and halves of surrogate pairs. Escapes in sheets and documents can
name a half alone, though no bytes of UTF-8 spell it.
-/

set_option autoImplicit false

namespace StylePrune

/-- `surrogate n` has the number 0xD800 + n. -/
inductive CodePoint where
  | char (c : Char)
  | surrogate (n : Fin 0x800)
  deriving DecidableEq, Repr

instance : Coe Char CodePoint := ⟨.char⟩

namespace CodePoint

def char? : CodePoint → Option Char
  | .char c => some c
  | .surrogate _ => none

def toNat : CodePoint → Nat
  | .char c => c.toNat
  | .surrogate n => 0xD800 + n.val

/-- The code point of a number below 0x110000. -/
def ofNat (n : Nat) : CodePoint :=
  if h : 0xD800 ≤ n ∧ n ≤ 0xDFFF then .surrogate ⟨n - 0xD800, by omega⟩ else .char (Char.ofNat n)

theorem toNat_ofNat {n : Nat} (h : n < 0x110000) : (ofNat n).toNat = n := by
  unfold ofNat
  split
  · simp only [toNat]; omega
  · have hv : n.isValidChar := by simp only [Nat.isValidChar]; omega
    rw [toNat, Char.ofNat, dif_pos hv]
    rfl

/-- Numbers of first halves. -/
def isHigh (n : Nat) : Bool := 0xD800 ≤ n && n ≤ 0xDBFF

/-- Numbers of second halves. -/
def isLow (n : Nat) : Bool := 0xDC00 ≤ n && n ≤ 0xDFFF

/-- The character of which these are the halves. -/
def ofHalves (high low : Nat) : CodePoint := ofNat (0x10000 + (high - 0xD800) * 0x400 + (low - 0xDC00))

instance : LT CodePoint := ⟨fun a b => a.toNat < b.toNat⟩

instance : LE CodePoint := ⟨fun a b => a.toNat ≤ b.toNat⟩

instance (a b : CodePoint) : Decidable (a < b) := inferInstanceAs (Decidable (a.toNat < b.toNat))

instance (a b : CodePoint) : Decidable (a ≤ b) := inferInstanceAs (Decidable (a.toNat ≤ b.toNat))

/-- Bytes of UTF-8. In the name of a file half of a pair stands for one stray byte. -/
def utf8Size (c : CodePoint) : Nat := c.char?.elim 1 Char.utf8Size

/-- Letters and digits of ASCII. -/
def isAlpha (c : CodePoint) : Bool := c.char?.any Char.isAlpha

def isDigit (c : CodePoint) : Bool := c.char?.any Char.isDigit

def isAlphanum (c : CodePoint) : Bool := c.isAlpha || c.isDigit

/-- Changes letters of ASCII only. -/
def toLower : CodePoint → CodePoint
  | .char c => .char c.toLower
  | .surrogate n => .surrogate n

def toUpper : CodePoint → CodePoint
  | .char c => .char c.toUpper
  | .surrogate n => .surrogate n

end CodePoint
end StylePrune
