import StylePrune.Text.Utf8

/-!
What is spelled in UTF-8 reads back: the bytes of each character are taken as that character, whatever follows.
-/

set_option autoImplicit false

namespace StylePrune

theorem CodePoint.ofNat_toNat (c : CodePoint) : ofNat c.toNat = c := by
  cases c with
  | char c =>
    have hs : ¬ (0xD800 ≤ c.toNat ∧ c.toNat ≤ 0xDFFF) := by
      have := c.valid
      simp only [UInt32.isValidChar, Nat.isValidChar] at this
      have : c.val.toNat = c.toNat := rfl
      omega
    rw [ofNat, toNat, dif_neg hs, Char.ofNat_toNat]
  | surrogate n =>
    have hs : 0xD800 ≤ (surrogate n).toNat ∧ (surrogate n).toNat ≤ 0xDFFF := by
      have := n.isLt
      simp only [toNat]
      omega
    rw [ofNat, dif_pos hs]
    simp [toNat]

theorem CodePoint.toNat_char_bounds (c : Char) :
    (char c).toNat < 0x110000 ∧ ((char c).toNat < 0xD800 ∨ 0xE000 ≤ (char c).toNat) := by
  have := c.valid
  simp only [UInt32.isValidChar, Nat.isValidChar] at this
  have : c.val.toNat = c.toNat := rfl
  simp only [toNat]
  omega

namespace Utf8

theorem readTail_cons {n low high acc k : Nat} {bs : Bytes} (hk : k < 0x100) (hl : low ≤ k) (hh : k ≤ high) :
    readTail (n + 1) low high acc (UInt8.ofNat k :: bs) = readTail n 0x80 0xBF (acc * 64 + k % 64) bs := by
  have hn : (UInt8.ofNat k).toNat = k := by simp [Nat.mod_eq_of_lt hk]
  rw [readTail, hn, if_pos ⟨hl, hh⟩]

theorem toNat_ofNat {k : Nat} (hk : k < 0x100) : (UInt8.ofNat k).toNat = k := by simp [Nat.mod_eq_of_lt hk]

section Lengths

variable {n : Nat} {bs : Bytes}

theorem readChar_one (h : n < 0x80) : readChar false (UInt8.ofNat n) bs = (some (CodePoint.ofNat n), bs) := by
  rw [readChar, toNat_ofNat (by omega), if_pos h]

theorem readChar_two (h : 0x80 ≤ n) (h' : n < 0x800) :
    readChar false (UInt8.ofNat (0xC0 + n / 64)) (UInt8.ofNat (0x80 + n / 1 % 64) :: bs) =
      (some (CodePoint.ofNat n), bs) := by
  have hn : (0xC0 + n / 64 - 0xC0) * 64 + (0x80 + n / 1 % 64) % 64 = n := by omega
  rw [readChar, toNat_ofNat (by omega), if_neg (by omega), if_neg (by omega), if_pos (by omega),
    readTail_cons (by omega) (by omega) (by omega), readTail, hn]

/-- Numbers from 0xD800 on, which are no character's, are the only ones that a strict reading refuses. -/
theorem readChar_three (h : 0x800 ≤ n) (h' : n < 0x10000) (hs : n < 0xD800 ∨ 0xE000 ≤ n) :
    readChar false (UInt8.ofNat (0xE0 + n / 4096))
        (UInt8.ofNat (0x80 + n / 64 % 64) :: UInt8.ofNat (0x80 + n / 1 % 64) :: bs) =
      (some (CodePoint.ofNat n), bs) := by
  have tail {low high acc : Nat} (hl : low ≤ 0x80 + n / 64 % 64) (hh : 0x80 + n / 64 % 64 ≤ high)
      (hacc : acc = n / 4096) :
      readTail 2 low high acc (UInt8.ofNat (0x80 + n / 64 % 64) :: UInt8.ofNat (0x80 + n / 1 % 64) :: bs) =
        (some (CodePoint.ofNat n), bs) := by
    have hn : (acc * 64 + (0x80 + n / 64 % 64) % 64) * 64 + (0x80 + n / 1 % 64) % 64 = n := by omega
    rw [readTail_cons (by omega) hl hh, readTail_cons (by omega) (by omega) (by omega), readTail, hn]
  rw [readChar, toNat_ofNat (by omega), if_neg (by omega), if_neg (by omega), if_neg (by omega)]
  by_cases he : n < 0x1000
  · rw [if_pos (by omega), tail (by omega) (by omega) (by omega)]
  · rw [if_neg (by omega)]
    by_cases hd : 0xD000 ≤ n ∧ n < 0xE000
    · rw [if_pos (by omega), if_neg Bool.false_ne_true, tail (by omega) (by omega) (by omega)]
    · rw [if_neg (by omega), if_pos (by omega), tail (by omega) (by omega) (by omega)]

theorem readChar_four (h : 0x10000 ≤ n) (h' : n < 0x110000) :
    readChar false (UInt8.ofNat (0xF0 + n / 262144)) (UInt8.ofNat (0x80 + n / 4096 % 64) ::
        UInt8.ofNat (0x80 + n / 64 % 64) :: UInt8.ofNat (0x80 + n / 1 % 64) :: bs) =
      (some (CodePoint.ofNat n), bs) := by
  have tail {low high acc : Nat} (hl : low ≤ 0x80 + n / 4096 % 64) (hh : 0x80 + n / 4096 % 64 ≤ high)
      (hacc : acc = n / 262144) :
      readTail 3 low high acc (UInt8.ofNat (0x80 + n / 4096 % 64) :: UInt8.ofNat (0x80 + n / 64 % 64) ::
          UInt8.ofNat (0x80 + n / 1 % 64) :: bs) = (some (CodePoint.ofNat n), bs) := by
    have hn : ((acc * 64 + (0x80 + n / 4096 % 64) % 64) * 64 + (0x80 + n / 64 % 64) % 64) * 64 +
        (0x80 + n / 1 % 64) % 64 = n := by omega
    rw [readTail_cons (by omega) hl hh, readTail_cons (by omega) (by omega) (by omega),
      readTail_cons (by omega) (by omega) (by omega), readTail, hn]
  rw [readChar, toNat_ofNat (by omega), if_neg (by omega), if_neg (by omega), if_neg (by omega), if_neg (by omega),
    if_neg (by omega), if_neg (by omega)]
  by_cases hf : n < 0x40000
  · rw [if_pos (by omega), tail (by omega) (by omega) (by omega)]
  · rw [if_neg (by omega)]
    by_cases hm : n < 0x100000
    · rw [if_pos (by omega), tail (by omega) (by omega) (by omega)]
    · rw [if_neg (by omega), if_pos (by omega), tail (by omega) (by omega) (by omega)]

end Lengths

/-- A character is read from its own bytes, whatever follows. -/
theorem units_append (c : Char) (bs : Bytes) : units false (encodeChar (.char c) ++ bs) =
    some (.char c) :: units false bs := by
  obtain ⟨hlt, hs⟩ := CodePoint.toNat_char_bounds c
  have hback := CodePoint.ofNat_toNat (.char c)
  unfold encodeChar
  generalize (CodePoint.char c).toNat = n at hlt hs hback
  dsimp only
  rw [← hback]
  by_cases h1 : n < 0x80
  · rw [if_pos h1, List.cons_append, units, readChar_one h1, List.nil_append]
  rw [if_neg h1]
  by_cases h2 : n < 0x800
  · rw [if_pos h2, List.cons_append, units, List.cons_append, readChar_two (by omega) h2, List.nil_append]
  rw [if_neg h2]
  by_cases h3 : n < 0x10000
  · rw [if_pos h3, List.cons_append, units, List.cons_append, List.cons_append, readChar_three (by omega) h3 hs,
      List.nil_append]
  · rw [if_neg h3, List.cons_append, units, List.cons_append, List.cons_append, List.cons_append,
      readChar_four (by omega) hlt, List.nil_append]

/-- The bytes of a text spell the text. -/
theorem decode?_of_encode? {s : Text} {bs : Bytes} (h : encode? s = some bs) : decode? bs = some s := by
  unfold encode? at h
  split at h
  · rename_i hall
    obtain rfl := Option.some.inj h
    clear h
    induction s with
    | nil =>
      rw [List.flatMap_nil, decode?, units, List.mapM_nil]
      rfl
    | cons c s ih =>
      obtain ⟨hc, hs⟩ := List.forall_mem_cons.1 (List.all_eq_true.1 hall)
      cases c with
      | char c =>
        have ih := ih (List.all_eq_true.2 hs)
        rw [decode?] at ih
        rw [List.flatMap_cons, decode?, units_append, List.mapM_cons, ih]
        rfl
      | surrogate n => cases hc
  · cases h

end Utf8
end StylePrune
