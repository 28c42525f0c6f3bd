import StylePrune.Text.Basic

/-!
UTF-8, written and read. Only texts without lone halves of surrogate pairs have a spelling. Reading either
refuses what is ill-formed or puts one replacement character for each longest start of a sequence that
cannot be completed; a lenient reading also takes halves in the three bytes that their numbers would have.
-/

set_option autoImplicit false

namespace StylePrune

abbrev Bytes := List UInt8

namespace Utf8

/-- The bytes that a number has, be it that of a character or of a half. -/
def encodeChar (c : CodePoint) : Bytes :=
  let n := c.toNat
  let tail (k : Nat) : UInt8 := UInt8.ofNat (0x80 + n / k % 64)
  if n < 0x80 then [UInt8.ofNat n]
  else if n < 0x800 then [UInt8.ofNat (0xC0 + n / 64), tail 1]
  else if n < 0x10000 then [UInt8.ofNat (0xE0 + n / 4096), tail 64, tail 1]
  else [UInt8.ofNat (0xF0 + n / 262144), tail 4096, tail 64, tail 1]

def encode? (s : Text) : Option Bytes :=
  if s.all fun c => c.char?.isSome then some (s.flatMap encodeChar) else none

/-- Reads `n` more bytes, the first within `low` and `high`; `none` where the sequence breaks off. -/
def readTail : (n low high : Nat) → (acc : Nat) → Bytes → Option CodePoint × Bytes
  | 0, _, _, acc, bs => (some (CodePoint.ofNat acc), bs)
  | _ + 1, _, _, _, [] => (none, [])
  | n + 1, low, high, acc, b :: bs =>
    if low ≤ b.toNat ∧ b.toNat ≤ high then readTail n 0x80 0xBF (acc * 64 + b.toNat % 64) bs
    else (none, b :: bs)

theorem readTail_length (n low high acc : Nat) (bs : Bytes) :
    (readTail n low high acc bs).2.length ≤ bs.length := by
  induction n generalizing low high acc bs with
  | zero => simp [readTail]
  | succ n ih =>
    cases bs with
    | nil => simp [readTail]
    | cons b bs =>
      simp only [readTail]
      split
      · exact Nat.le_succ_of_le (ih ..)
      · simp

/-- One character, or `none` for a start that no character has, and what follows. -/
def readChar (lenient : Bool) (b : UInt8) (bs : Bytes) : Option CodePoint × Bytes :=
  let n := b.toNat
  if n < 0x80 then (some (CodePoint.ofNat n), bs)
  else if n < 0xC2 then (none, bs)
  else if n < 0xE0 then readTail 1 0x80 0xBF (n - 0xC0) bs
  else if n = 0xE0 then readTail 2 0xA0 0xBF 0 bs
  else if n = 0xED then readTail 2 0x80 (if lenient then 0xBF else 0x9F) 0xD bs
  else if n < 0xF0 then readTail 2 0x80 0xBF (n - 0xE0) bs
  else if n = 0xF0 then readTail 3 0x90 0xBF 0 bs
  else if n < 0xF4 then readTail 3 0x80 0xBF (n - 0xF0) bs
  else if n = 0xF4 then readTail 3 0x80 0x8F 4 bs
  else (none, bs)

theorem readChar_length (lenient : Bool) (b : UInt8) (bs : Bytes) :
    (readChar lenient b bs).2.length ≤ bs.length := by
  unfold readChar
  simp only []
  repeat' split
  all_goals first | exact readTail_length .. | exact Nat.le_refl _

/-- The characters in order, `none` where bytes are ill-formed. -/
def units (lenient : Bool) : Bytes → List (Option CodePoint)
  | [] => []
  | b :: bs => (readChar lenient b bs).1 :: units lenient (readChar lenient b bs).2
termination_by bs => bs.length
decreasing_by exact Nat.lt_succ_of_le (readChar_length lenient b bs)

def decode? (bs : Bytes) : Option Text := (units false bs).mapM id

/-- Takes lone halves too. -/
def decodeLenient? (bs : Bytes) : Option Text := (units true bs).mapM id

/-- Reads any bytes; ill-formed ones become U+FFFD. -/
def decodeLossy (bs : Bytes) : Text := (units false bs).map (·.getD '\uFFFD')

/-- The bytes without a leading byte order mark. -/
def dropMark : Bytes → Bytes
  | 0xEF :: 0xBB :: 0xBF :: bs => bs
  | bs => bs

end Utf8
end StylePrune
