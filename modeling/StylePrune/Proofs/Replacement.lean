import Mathlib
import StylePrune.Proofs.Accounting

/-!
How much room a text takes that was read from bytes: as many bytes as there were, and for each ill-formed start the
bytes by which it is shorter than the replacement character.
-/

set_option autoImplicit false

namespace StylePrune

theorem CodePoint.utf8Size_pos (c : CodePoint) : 0 < c.utf8Size := by
  cases c with
  | char c => exact Char.utf8Size_pos c
  | surrogate n => exact Nat.one_pos

namespace Text

@[simp] theorem utf8Size_cons (c : CodePoint) (s : Text) : utf8Size (c :: s) = c.utf8Size + utf8Size s := rfl

theorem utf8Size_le_of_sublist {s t : Text} (h : s.Sublist t) : utf8Size s ≤ utf8Size t := by
  induction h with
  | slnil => exact Nat.le_refl _
  | cons c _ ih => exact Nat.le_trans ih (Nat.le_add_left _ _)
  | cons_cons c _ ih => exact Nat.add_le_add_left ih _

theorem length_le_utf8Size (s : Text) : s.length ≤ utf8Size s := by
  induction s with
  | nil => exact Nat.le_refl _
  | cons c s ih =>
    have := c.utf8Size_pos
    rw [List.length_cons, utf8Size_cons]
    omega

end Text

namespace Utf8

variable {n low high acc : Nat} {b : UInt8} {bs : Bytes} {c : CodePoint}

/-- The bytes that are added where bytes are read with replacement: three are there for each ill-formed start. -/
def growth : Bytes → Nat
  | [] => 0
  | b :: bs =>
    let r := readChar false b bs
    (if r.1.isNone then 3 - (bs.length + 1 - r.2.length) else 0) + growth r.2
termination_by bs => bs.length
decreasing_by exact Nat.lt_succ_of_le (readChar_length false b bs)

theorem length_readTail (h : (readTail n low high acc bs).1 = some c) :
    (readTail n low high acc bs).2.length + n = bs.length := by
  induction n generalizing low high acc bs with
  | zero => rfl
  | succ n ih =>
    cases bs with
    | nil => cases h
    | cons b bs =>
      rw [readTail] at h ⊢
      split at h
      · rename_i hb
        rw [if_pos hb, List.length_cons, ← ih h]
        rfl
      · cases h

/-- What breaks off is shorter than what was asked for. -/
theorem lt_length_readTail (h : (readTail n low high acc bs).1 = none) :
    bs.length < (readTail n low high acc bs).2.length + n := by
  induction n generalizing low high acc bs with
  | zero => cases h
  | succ n ih =>
    cases bs with
    | nil => exact Nat.lt_add_left _ (Nat.succ_pos n)
    | cons b bs =>
      rw [readTail] at h ⊢
      split at h
      · rename_i hb
        have := ih h
        rw [if_pos hb, List.length_cons]
        omega
      · rename_i hb
        rw [if_neg hb]
        exact Nat.lt_add_of_pos_right (Nat.succ_pos n)

theorem utf8Size_ofNat {n : Nat} (h : n < 0x110000) (hs : n < 0xD800 ∨ 0xE000 ≤ n) : (CodePoint.ofNat n).utf8Size =
    if n < 0x80 then 1 else if n < 0x800 then 2 else if n < 0x10000 then 3 else 4 := by
  have hv : n.isValidChar := by
    unfold Nat.isValidChar
    omega
  have hn : (Char.ofNat n).toNat = n := by
    rw [Char.ofNat, dif_pos hv]
    simp [Char.ofNatAux, Char.toNat]
  have hsize := utf8Size_eq (Char.ofNat n)
  rw [hn] at hsize
  rw [CodePoint.ofNat, dif_neg (by omega), ← hsize]
  rfl

/-- The numbers of the characters that take `k` bytes beyond two. -/
def HasWidth (k n : Nat) : Prop :=
  k = 0 ∧ 0x80 ≤ n ∧ n < 0x800 ∨ k = 1 ∧ 0x800 ≤ n ∧ n < 0x10000 ∧ (n < 0xD800 ∨ 0xE000 ≤ n) ∨
    k = 2 ∧ 0x10000 ≤ n ∧ n < 0x110000

theorem HasWidth.utf8Size_eq {k n : Nat} (h : HasWidth k n) : (CodePoint.ofNat n).utf8Size = k + 2 := by
  unfold HasWidth at h
  rw [utf8Size_ofNat (by omega) (by omega)]
  split_ifs <;> omega

theorem utf8Size_of_readTail {k : Nat} (hl : 0x80 ≤ low) (hh : high ≤ 0xBF)
    (hn : ∀ m, (acc * 64 + (low - 0x80)) * 64 ^ k ≤ m → m < (acc * 64 + (high - 0x80) + 1) * 64 ^ k → HasWidth k m)
    (h : (readTail (k + 1) low high acc bs).1 = some c) :
    c.utf8Size + (readTail (k + 1) low high acc bs).2.length = bs.length + 1 := by
  obtain ⟨m, rfl, hle, hlt⟩ := exists_of_readTail hl hh h
  rw [(hn m hle hlt).utf8Size_eq, ← length_readTail h]
  omega

/-- What a byte is the start of: a character by itself, nothing, or a character that takes up to three bytes more. -/
inductive Reading (b : UInt8) (bs : Bytes) : Option CodePoint × Bytes → Prop where
  | single : b.toNat < 0x80 → Reading b bs (some (CodePoint.ofNat b.toNat), bs)
  | stray : Reading b bs (none, bs)
  | tail {k low high acc : Nat} : k ≤ 2 → 0x80 ≤ low → high ≤ 0xBF →
      (∀ m, (acc * 64 + (low - 0x80)) * 64 ^ k ≤ m → m < (acc * 64 + (high - 0x80) + 1) * 64 ^ k → HasWidth k m) →
      Reading b bs (readTail (k + 1) low high acc bs)

theorem reading_readChar (b : UInt8) (bs : Bytes) : Reading b bs (readChar false b bs) := by
  have hb := b.toNat_lt
  have tail {k low high acc : Nat} (hk : k ≤ 2) (hl : 0x80 ≤ low) (hh : high ≤ 0xBF)
      (hn : ∀ m, (acc * 64 + (low - 0x80)) * 64 ^ k ≤ m → m < (acc * 64 + (high - 0x80) + 1) * 64 ^ k → HasWidth k m) :
      Reading b bs (readTail (k + 1) low high acc bs) := .tail hk hl hh hn
  unfold HasWidth at tail
  simp only [readChar, Bool.false_eq_true, if_false]
  by_cases h₁ : b.toNat < 0x80
  · rw [if_pos h₁]
    exact .single h₁
  rw [if_neg h₁]
  by_cases h₂ : b.toNat < 0xC2
  · rw [if_pos h₂]
    exact .stray
  rw [if_neg h₂]
  split_ifs
  · exact tail (by decide) (by decide) (by decide) (by omega)
  · exact tail (by decide) (by decide) (by decide) (by omega)
  · exact tail (by decide) (by decide) (by decide) (by omega)
  · exact tail (by decide) (by decide) (by decide) (by omega)
  · exact tail (by decide) (by decide) (by decide) (by omega)
  · exact tail (by decide) (by decide) (by decide) (by omega)
  · exact tail (by decide) (by decide) (by decide) (by omega)
  · exact .stray

/-- A character that is read takes the bytes from which it was read. -/
theorem utf8Size_of_readChar (h : (readChar false b bs).1 = some c) :
    c.utf8Size + (readChar false b bs).2.length = bs.length + 1 := by
  have hr := reading_readChar b bs
  generalize readChar false b bs = r at hr h ⊢
  cases hr with
  | single hb =>
    obtain rfl := Option.some.inj h
    rw [utf8Size_ofNat (by omega) (by omega), if_pos hb, Nat.add_comm]
  | stray => cases h
  | tail _ hl hh hn => exact utf8Size_of_readTail hl hh hn h

/-- Three bytes at most are replaced by one character. -/
theorem length_le_of_readChar (h : (readChar false b bs).1 = none) :
    bs.length + 1 ≤ (readChar false b bs).2.length + 3 := by
  have hr := reading_readChar b bs
  generalize readChar false b bs = r at hr h ⊢
  cases hr with
  | single => cases h
  | stray => exact Nat.add_le_add_left (by decide) _
  | tail hk =>
    have := lt_length_readTail h
    omega

/-- A text takes the bytes from which it was read, and what the replacements add. -/
theorem utf8Size_decodeLossy (bs : Bytes) : Text.utf8Size (decodeLossy bs) = bs.length + growth bs := by
  induction hn : bs.length using Nat.strongRecOn generalizing bs with
  | ind n ih =>
  subst hn
  cases bs with
  | nil => rw [decodeLossy, units, growth]; rfl
  | cons b bs =>
    have hle := readChar_length false b bs
    have ih := ih _ (Nat.lt_succ_of_le hle) _ rfl
    rw [decodeLossy] at ih
    rw [decodeLossy, units, growth, List.map_cons, Text.utf8Size_cons, ih, List.length_cons]
    cases hc : (readChar false b bs).1 with
    | some c =>
      have := utf8Size_of_readChar hc
      simp only [Option.getD_some, Option.isNone_some, Bool.false_eq_true, if_false]
      omega
    | none =>
      have := length_le_of_readChar hc
      have hsize : CodePoint.utf8Size '\uFFFD' = 3 := rfl
      simp only [Option.getD_none, Option.isNone_none, if_true, hsize]
      omega

/-- Nothing is added to bytes that are well-formed. -/
theorem growth_of_decode? (h : (decode? bs).isSome) : growth bs = 0 := by
  fun_induction growth bs with
  | case1 => rfl
  | case2 b bs r ih =>
    rw [decode?, units, List.mapM_cons] at h
    cases hc : (readChar false b bs).1 with
    | none => simp [hc] at h
    | some c =>
      have hrest : (decode? r.2).isSome := by
        cases hd : decode? r.2 with
        | none =>
          rw [decode?] at hd
          simp [r, hc, hd] at h
        | some s => rfl
      rw [ih hrest]
      rfl

theorem length_dropMark_le (bs : Bytes) : (dropMark bs).length ≤ bs.length := by
  unfold dropMark
  split
  · simp only [List.length_cons]
    omega
  · exact Nat.le_refl _

end Utf8
end StylePrune
