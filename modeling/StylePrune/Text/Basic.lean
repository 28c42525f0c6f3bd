import StylePrune.Text.CodePoint

/-!
Text as a list of code points, with the cuts and joins that the formats of this library share.
Each cut puts back together to the text it cut.
-/

set_option autoImplicit false

namespace StylePrune

abbrev Text := List CodePoint

instance : LawfulBEq Text := inferInstance

namespace Text

def ofString (s : String) : Text := s.toList.map CodePoint.char

@[simp] theorem length_ofString (s : String) : (ofString s).length = s.toList.length := by simp [ofString]

/-- U+FFFD stands for every lone half of a surrogate pair. -/
def toString (s : Text) : String := String.ofList (s.map fun c => c.char?.getD '\uFFFD')

instance : Coe String Text := ⟨ofString⟩

/-- What follows `p` in a text that begins with `p`. -/
def after? : (p s : Text) → Option Text
  | [], s => some s
  | _ :: _, [] => none
  | a :: p, b :: s => if a = b then after? p s else none

theorem eq_append_of_after? {p s r : Text} (h : after? p s = some r) : s = p ++ r := by
  induction p generalizing s with
  | nil => simpa [after?] using h
  | cons a p ih =>
    cases s with
    | nil => simp [after?] at h
    | cons b s =>
      by_cases hab : a = b
      · simp only [after?, hab, if_true] at h
        simp [hab, ih h]
      · simp [after?, hab] at h

@[simp] theorem after?_append (p r : Text) : after? p (p ++ r) = some r := by
  induction p <;> simp_all [after?]

def startsWith (s p : Text) : Bool := (after? p s).isSome

def endsWith (s p : Text) : Bool := startsWith s.reverse p.reverse

/-- Cuts at the first `p`: what stands before it and what follows it. -/
def cutAt? (p : Text) : Text → Option (Text × Text)
  | [] => if p = [] then some ([], []) else none
  | c :: s => match after? p (c :: s) with
    | some r => some ([], r)
    | none => (cutAt? p s).map fun (a, r) => (c :: a, r)

theorem eq_append_of_cutAt? {p s a r : Text} (h : cutAt? p s = some (a, r)) : s = a ++ p ++ r := by
  induction s generalizing a r with
  | nil => simp only [cutAt?] at h; split at h <;> simp_all
  | cons c s ih =>
    simp only [cutAt?] at h
    split at h
    · rename_i r' hr
      obtain ⟨rfl, rfl⟩ := by simpa using h
      simpa using eq_append_of_after? hr
    · obtain ⟨⟨a', r'⟩, h', he⟩ := Option.map_eq_some_iff.1 h
      obtain ⟨rfl, rfl⟩ := by simpa using he
      simp [ih h']

/-- Cuts at the last `p`. -/
def cutAtLast? (p s : Text) : Option (Text × Text) :=
  (cutAt? p.reverse s.reverse).map fun (a, b) => (b.reverse, a.reverse)

def includes (s p : Text) : Bool := (cutAt? p s).isSome

/-- The pieces between the places where `p` holds: one more than there are such places. -/
def splitWhen (p : CodePoint → Bool) : Text → List Text
  | [] => [[]]
  | c :: s =>
    if p c then [] :: splitWhen p s
    else match splitWhen p s with
      | [] => [[c]]
      | w :: ws => (c :: w) :: ws

def splitOn (c : CodePoint) (s : Text) : List Text := splitWhen (· = c) s

def joinWith (sep : Text) : List Text → Text
  | [] => []
  | [w] => w
  | w :: ws => w ++ sep ++ joinWith sep ws

/-- Every `p` becomes `q`, from the left; an empty `p` changes nothing. -/
def replaceAll (p q : Text) (s : Text) : Text :=
  if p = [] then s else go s.length s
where
  go : Nat → Text → Text
    | 0, s => s
    | n + 1, s => match cutAt? p s with
      | some (a, r) => a ++ q ++ go n r
      | none => s

def trimLeft (p : CodePoint → Bool) (s : Text) : Text := s.dropWhile p

def trimRight (p : CodePoint → Bool) (s : Text) : Text := (s.reverse.dropWhile p).reverse

def trim (p : CodePoint → Bool) (s : Text) : Text := trimRight p (trimLeft p s)

/-- Bytes that a text takes in UTF-8. -/
def utf8Size (s : Text) : Nat := s.foldr (fun c n => c.utf8Size + n) 0

@[simp] theorem utf8Size_nil : utf8Size [] = 0 := rfl

@[simp] theorem utf8Size_append (s t : Text) : utf8Size (s ++ t) = utf8Size s + utf8Size t := by
  induction s with
  | nil => simp
  | cons c s ih =>
    simp only [utf8Size, List.cons_append, List.foldr_cons] at ih ⊢
    omega

def digits (base n : Nat) : Text := (Nat.toDigits base n).map CodePoint.char

/-- Decimal digits. -/
def ofNat (n : Nat) : Text := digits 10 n

def ofInt : Int → Text
  | .ofNat n => ofNat n
  | .negSucc n => '-' :: ofNat (n + 1)

/-- Upper-case hexadecimal digits. -/
def hexOfNat (n : Nat) : Text := (digits 16 n).map CodePoint.toUpper

/-- At least `w` decimal digits, filled with zeros on the left. -/
def padded (w n : Nat) : Text := (ofNat n).leftpad w '0'

/-- Lower-case hexadecimal digits, at least `w` of them. -/
def paddedHex (w n : Nat) : Text := (digits 16 n).leftpad w '0'

def hexDigit? (c : CodePoint) : Option Nat :=
  if c.isDigit then some (c.toNat - 48)
  else if 'a' ≤ c ∧ c ≤ 'f' then some (c.toNat - 87)
  else if 'A' ≤ c ∧ c ≤ 'F' then some (c.toNat - 55)
  else none

def isHexDigit (c : CodePoint) : Bool := (hexDigit? c).isSome

/-- Value of digits read in the given base, most significant first. -/
def digitsValue (base : Nat) (s : Text) : Nat :=
  s.foldl (fun n c => n * base + (hexDigit? c).getD 0) 0

/-- ASCII letters only; every other character stays. -/
def asciiLower (s : Text) : Text := s.map CodePoint.toLower

/-- Texts in the order of their code points; equal ones keep their places. -/
def sorted (xs : List Text) : List Text := xs.mergeSort fun a b => !decide (b < a)

end Text
end StylePrune
