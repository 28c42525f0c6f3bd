import Mathlib
import StylePrune.Proofs.Css.Reading

/-!
What the tokens of a text are made of: names with a character at least, numbers that are numbers, marks that stand for
themselves, and nowhere a NUL character.
-/

set_option autoImplicit false

namespace StylePrune.Css

/-- A text that reading leaves as it is. -/
def IsSeen (s : Text) : Prop := ∀ c ∈ s, c ≠ '\r' ∧ c ≠ '\x0c' ∧ c ≠ '\x00'

def HasNoNul (s : Text) : Prop := ∀ c ∈ s, c ≠ '\x00'

/-- The name behind a number sign that is not an identifier. -/
def isPlainHash : Text → Bool
  | '-' :: d :: _ => d.isDigit
  | c :: _ => c.isDigit || c == '-'
  | [] => false

/-- What the reader makes of a leaf. A bracket that closes nothing is not yet an error for it. -/
def Leaf.IsProper : Leaf → Prop
  | .whitespace w => w ≠ [] ∧ ∀ c ∈ w, isSpace c = true
  | .ident n | .atKeyword n => n ≠ [] ∧ HasNoNul n
  | .hash n isIdent => n ≠ [] ∧ HasNoNul n ∧ (isIdent = false → isPlainHash n = true)
  | .string v _ | .url v _ => HasNoNul v
  | .number r | .percentage r => IsNumber r
  | .dimension r u => IsNumber r ∧ u ≠ [] ∧ HasNoNul u
  | .unicodeRange low high => low < 16 ^ 6 ∧ high < 16 ^ 6
  | .literal s => IsSeen s ∧
    ((∃ c, s = [c] ∧ IsMark c) ∨ (∃ c : CodePoint, s = [c, .char '='] ∧ isMatcher c = true) ∨ s ∈ [("<!--" : Text), "-->", "||"])
  | .error (.unmatched _) => False
  | .comment _ | .error _ => True

def Lexeme.IsProper : Lexeme → Prop
  | .leaf t => t.IsProper
  | .function n => n ≠ [] ∧ HasNoNul n
  | .opening _ | .closing _ => True

section Nul

variable {s t : Text}

theorem HasNoNul.of_suffix (h : HasNoNul s) (ht : t <:+ s) : HasNoNul t := fun c hc => h c (ht.subset hc)

theorem IsSeen.hasNoNul (h : IsSeen s) : HasNoNul s := fun c hc => (h c hc).2.2

theorem takeEscape_ne_nul (h : HasNoNul s) : (takeEscape s).1 ≠ '\x00' := by
  unfold takeEscape
  split
  · split
    · decide
    · exact h _ List.mem_cons_self
  · rename_i ds _ _ _
    simp only []
    split
    · decide
    · rename_i hn
      intro h₀
      obtain ⟨h₁, h₂⟩ := not_or.1 hn
      have := CodePoint.toNat_ofNat (n := Text.digitsValue 16 ds) (by omega)
      rw [h₀] at this
      exact h₁ this.symm

theorem hasNoNul_takeName (h : HasNoNul s) : HasNoNul (takeName s).1 := by
  fun_induction takeName s with
  | case1 => exact List.forall_mem_nil _
  | case2 c s hc v r e ih =>
    obtain ⟨h₁, h⟩ := List.forall_mem_cons.1 h
    rw [e] at ih
    exact List.forall_mem_cons.2 ⟨h₁, ih h⟩
  | case3 c s hc he hl v r e ih =>
    obtain ⟨-, h⟩ := List.forall_mem_cons.1 h
    rw [e] at ih
    exact List.forall_mem_cons.2 ⟨takeEscape_ne_nul h, ih (HasNoNul.of_suffix h (takeEscape_suffix s))⟩
  | case4 => exact List.forall_mem_nil _

theorem hasNoNul_takeString (q : CodePoint) (h : HasNoNul s) : HasNoNul (takeString q s).1 := by
  fun_induction takeString q s with
  | case4 r hc ih =>
    exact ih (h.of_suffix ((List.suffix_cons _ r).trans (List.suffix_cons _ _)))
  | case5 s _ _ _ _ _ _ e _ ih =>
    have h := h.of_suffix (List.suffix_cons _ s)
    rw [e] at ih
    exact List.forall_mem_cons.2 ⟨takeEscape_ne_nul h, ih (HasNoNul.of_suffix h (takeEscape_suffix s))⟩
  | case7 c s _ _ _ _ _ _ e ih =>
    obtain ⟨h₁, h⟩ := List.forall_mem_cons.1 h
    rw [e] at ih
    exact List.forall_mem_cons.2 ⟨h₁, ih h⟩
  | _ => exact List.forall_mem_nil _

theorem hasNoNul_takeUrl (h : HasNoNul s) : HasNoNul (takeUrl s).1 := by
  fun_induction takeUrl s with
  | case6 c s _ _ _ _ _ _ _ e ih =>
    obtain ⟨-, h⟩ := List.forall_mem_cons.1 h
    rw [e] at ih
    exact List.forall_mem_cons.2 ⟨takeEscape_ne_nul h, ih (HasNoNul.of_suffix h (takeEscape_suffix s))⟩
  | case8 c s _ _ _ _ _ _ _ e ih =>
    obtain ⟨h₁, h⟩ := List.forall_mem_cons.1 h
    rw [e] at ih
    exact List.forall_mem_cons.2 ⟨h₁, ih h⟩
  | _ => exact List.forall_mem_nil _

end Nul

section Ranges

variable {s : Text}

theorem hexDigit?_lt (c : CodePoint) : (Text.hexDigit? c).getD 0 < 16 := by
  unfold Text.hexDigit?
  split
  · rename_i h
    have := toNat_of_isDigit h
    simp only [Option.getD_some]
    omega
  · split
    · rename_i h
      have h : 0x61 ≤ c.toNat ∧ c.toNat ≤ 0x66 := h
      simp only [Option.getD_some]
      omega
    · split
      · rename_i h
        have h : 0x41 ≤ c.toNat ∧ c.toNat ≤ 0x46 := h
        simp only [Option.getD_some]
        omega
      · decide

theorem digitsValue_lt (s : Text) : Text.digitsValue 16 s < 16 ^ s.length := by
  induction s using List.reverseRecOn with
  | nil => decide
  | append_singleton s c ih =>
    have hc := hexDigit?_lt c
    rw [Text.digitsValue, List.foldl_append, ← Text.digitsValue, List.length_append]
    simp only [List.foldl_cons, List.foldl_nil, List.length_singleton, pow_succ]
    omega

theorem length_takeUpTo_le (p : CodePoint → Bool) (n : Nat) (s : Text) : (takeUpTo p n s).1.length ≤ n := by
  fun_induction takeUpTo p n s <;> simp_all

theorem takeRange_lt (s : Text) : (takeRange s).1 < 16 ^ 6 ∧ (takeRange s).2.1 < 16 ^ 6 := by
  have six {t : Text} : Text.digitsValue 16 (takeUpTo Text.isHexDigit 6 t).1 < 16 ^ 6 :=
    Nat.lt_of_lt_of_le (digitsValue_lt _) (Nat.pow_le_pow_right (by decide) (length_takeUpTo_le ..))
  have hlow := digitsValue_lt (takeUpTo Text.isHexDigit 6 s).1
  have hlength := length_takeUpTo_le Text.isHexDigit 6 s
  have hmarks := length_takeUpTo_le (· = .char '?') (6 - (takeUpTo Text.isHexDigit 6 s).1.length) (takeUpTo Text.isHexDigit 6 s).2
  simp only [takeRange]
  split
  · generalize Text.digitsValue 16 (takeUpTo Text.isHexDigit 6 s).1 = low at hlow
    generalize (takeUpTo Text.isHexDigit 6 s).1.length = a at hlow hlength hmarks
    generalize (takeUpTo _ _ _).1.length = k at hmarks
    have hpow : (low + 1) * 16 ^ k ≤ 16 ^ 6 :=
      calc (low + 1) * 16 ^ k ≤ 16 ^ a * 16 ^ k := Nat.mul_le_mul_right _ hlow
        _ = 16 ^ (a + k) := (pow_add ..).symm
        _ ≤ 16 ^ 6 := Nat.pow_le_pow_right (by decide) (by omega)
    have hpos : 0 < 16 ^ k := Nat.pow_pos (by decide)
    have hsplit : (low + 1) * 16 ^ k = low * 16 ^ k + 16 ^ k := Nat.succ_mul ..
    simp only [Nat.pow_eq]
    constructor <;> omega
  · split
    · split
      · exact ⟨six, six⟩
      · exact ⟨six, six⟩
    · exact ⟨six, six⟩

end Ranges

section Names

variable {t : Text}

theorem takeName_ne_nil_of_startsHash (h : startsHash t = true) : (takeName t).1 ≠ [] := by
  cases t with
  | nil => cases h
  | cons c t =>
    rw [startsHash, Bool.or_eq_true] at h
    by_cases hc : isNameChar c = true
    · rw [takeName_cons_char hc]
      exact List.cons_ne_nil _ _
    · rw [takeName_cons_escape (by simpa using hc) (h.resolve_left hc)]
      exact List.cons_ne_nil _ _

theorem isDigit_of_isNameChar {c : CodePoint} (hc : isNameChar c = true) (hs : isNameStart c = false) (hd : c ≠ '-') :
    c.isDigit = true := by
  simpa [isNameChar, hs, hd] using hc

/-- A name behind a number sign that starts unlike an identifier starts with a digit, perhaps behind a dash, or is a dash. -/
theorem isPlainHash_takeName (hi : startsIdent t = false) (hh : startsHash t = true) :
    isPlainHash (takeName t).1 = true := by
  cases t with
  | nil => cases hh
  | cons c t =>
    have hh : (isNameChar c || startsEscape (c :: t)) = true := hh
    by_cases hd : c = '-'
    · subst hd
      rw [takeName_cons_char (by decide)]
      cases t with
      | nil =>
        rw [takeName]
        rfl
      | cons d t =>
        obtain ⟨hdash, he⟩ := Bool.or_eq_false_iff.1 hi
        obtain ⟨hs, hne⟩ := Bool.or_eq_false_iff.1 hdash
        by_cases hc : isNameChar d = true
        · rw [takeName_cons_char hc]
          exact isDigit_of_isNameChar hc hs (by simpa using hne)
        · rw [takeName_cons_other (by simpa using hc) he]
          rfl
    · rw [startsIdent_of_ne hd, Bool.or_eq_false_iff] at hi
      rw [hi.2, Bool.or_false] at hh
      have hdigit := isDigit_of_isNameChar hh hi.1 hd
      rw [takeName_cons_char hh]
      unfold isPlainHash
      split
      · rename_i heq
        exact absurd (List.cons.inj heq).1 hd
      · rename_i heq
        obtain ⟨rfl, -⟩ := List.cons.inj heq
        rw [hdigit, Bool.true_or]
      · rename_i heq
        cases heq

end Names

theorem Reading.isProper {s r : Text} {ls : List Lexeme} (h : Reading s ls r) (hs : IsSeen s) : ∀ l ∈ ls, l.IsProper := by
  have hn := hs.hasNoNul
  have name {n r t : Text} (ht : HasNoNul t) (h : takeName t = (n, r)) : HasNoNul n := by
    have := hasNoNul_takeName ht
    rwa [h] at this
  cases h with
  | whitespace _ hw ha => exact List.forall_mem_singleton.2 ⟨hw, ha⟩
  | comment => exact List.forall_mem_singleton.2 trivial
  | @range c t r low high _ _ hr =>
    have := takeRange_lt t
    rw [hr] at this
    exact List.forall_mem_singleton.2 this
  | ident hi h =>
    have hne := takeName_ne_nil hi
    rw [h] at hne
    exact List.forall_mem_singleton.2 ⟨hne, name hn h⟩
  | function hi h =>
    have hne := takeName_ne_nil hi
    rw [h] at hne
    exact List.forall_mem_singleton.2 ⟨hne, name hn h⟩
  | url _ ht hu =>
    have := hasNoNul_takeUrl (hn.of_suffix ht)
    rw [hu] at this
    exact List.forall_mem_singleton.2 this
  | badUrl => exact List.forall_mem_singleton.2 trivial
  | urlAtEnd _ ht hu =>
    have := hasNoNul_takeUrl (hn.of_suffix ht)
    rw [hu] at this
    exact List.forall_mem_cons.2 ⟨this, List.forall_mem_singleton.2 trivial⟩
  | number h | percentage h => exact List.forall_mem_singleton.2 (isNumber_of_takeNumber? h).1
  | @dimension n r t u h hi hu =>
    have hne := takeName_ne_nil hi
    rw [hu] at hne
    have hsuffix : n <:+ s := ⟨_, (takeNumber?_append h).1⟩
    exact List.forall_mem_singleton.2 ⟨(isNumber_of_takeNumber? h).1, hne, name (hn.of_suffix hsuffix) hu⟩
  | atKeyword ht hi h =>
    subst ht
    have hne := takeName_ne_nil hi
    rw [h] at hne
    exact List.forall_mem_singleton.2 ⟨hne, name (List.forall_mem_cons.1 hn).2 h⟩
  | hash ht hh h =>
    subst ht
    have hne := takeName_ne_nil_of_startsHash hh
    have hp (hi : startsIdent _ = false) := isPlainHash_takeName hi hh
    rw [h] at hne hp
    exact List.forall_mem_singleton.2 ⟨hne, name (List.forall_mem_cons.1 hn).2 h, hp⟩
  | @string q t v r ht hq hv =>
    subst ht
    have := hasNoNul_takeString q (List.forall_mem_cons.1 hn).2
    rw [hv] at this
    exact List.forall_mem_singleton.2 this
  | badString => exact List.forall_mem_singleton.2 trivial
  | @stringAtEnd q t v ht hq hv =>
    subst ht
    have := hasNoNul_takeString q (List.forall_mem_cons.1 hn).2
    rw [hv] at this
    exact List.forall_mem_cons.2 ⟨this, List.forall_mem_singleton.2 trivial⟩
  | opening => exact List.forall_mem_singleton.2 trivial
  | closing => exact List.forall_mem_singleton.2 trivial
  | mark ht hc =>
    subst ht
    exact List.forall_mem_singleton.2 ⟨List.forall_mem_singleton.2 (List.forall_mem_cons.1 hs).1, .inl ⟨_, rfl, hc⟩⟩
  | @matcher c r ht hc =>
    subst ht
    refine List.forall_mem_singleton.2 ⟨?_, .inr (.inl ⟨_, rfl, hc⟩)⟩
    exact fun d hd => hs d (List.mem_append_left r hd)
  | word ht hu =>
    refine List.forall_mem_singleton.2 ⟨fun d hd => hs d (ht ▸ List.mem_append_left _ hd), .inr (.inr hu)⟩

/-- The tokens of a text that reading leaves as it is are proper. -/
theorem isProper_of_mem_lexemes {s : Text} (hs : IsSeen s) : ∀ l ∈ lexemes s, l.IsProper := by
  induction hl : s.length using Nat.strongRecOn generalizing s with
  | ind n ih =>
    subst hl
    cases s with
    | nil => simp
    | cons c s =>
      have hrest : IsSeen (readToken c s).2 := fun d hd =>
        hs d (List.mem_cons_of_mem c ((readToken_suffix c s).subset hd))
      rw [lexemes_cons]
      exact List.forall_mem_append.2
        ⟨(reading_readToken c s).isProper hs, ih _ (Nat.lt_succ_of_le (readToken_length c s)) hrest rfl⟩

end StylePrune.Css
