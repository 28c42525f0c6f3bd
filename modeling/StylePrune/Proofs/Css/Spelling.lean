import Mathlib
import StylePrune.Proofs.Css.Shape
import StylePrune.Proofs.Css.Tokens
import StylePrune.Proofs.Utf8

/-!
Names, strings and URLs as they are written. Each reads back from its own text, whatever it holds, as long as what stands
behind does not carry it on.
-/

set_option autoImplicit false

namespace StylePrune.Css

section Escapes

variable {c : CodePoint}

theorem isNameStart_or_isDigit_of_isHexDigit (h : Text.isHexDigit c = true) : isNameStart c = true ∨ c.isDigit = true := by
  have hr : 0x30 ≤ c.toNat ∧ c.toNat ≤ 0x39 ∨ 0x61 ≤ c.toNat ∧ c.toNat ≤ 0x66 ∨ 0x41 ≤ c.toNat ∧ c.toNat ≤ 0x46 := by
    unfold Text.isHexDigit Text.hexDigit? at h
    split at h
    · rename_i hd
      exact .inl (toNat_of_isDigit hd)
    · split at h
      · rename_i hr
        exact .inr (.inl hr)
      · split at h
        · rename_i hr
          exact .inr (.inr hr)
        · cases h
  rw [← CodePoint.ofNat_toNat c]
  generalize c.toNat = n at hr
  rcases hr with ⟨h₁, h₂⟩ | ⟨h₁, h₂⟩ | ⟨h₁, h₂⟩
  · exact .inr (by interval_cases n <;> rfl)
  · exact .inl (by interval_cases n <;> rfl)
  · exact .inl (by interval_cases n <;> rfl)

theorem isHexDigit_of_not (hs : isNameStart c = false) (hd : c.isDigit = false) : Text.isHexDigit c = false :=
  Bool.eq_false_iff.2 fun h => (isNameStart_or_isDigit_of_isHexDigit h).elim (by simp [hs]) (by simp [hd])

theorem takeEscape_plain (hc : Text.isHexDigit c = false) (s : Text) : takeEscape (c :: s) = (c, s) := by
  simp [takeEscape, takeUpTo, hc]

theorem takeEscape_lineFeed (s : Text) : takeEscape ('A' :: ' ' :: s) = (.char '\n', s) := rfl

theorem takeEscape_carriageReturn (s : Text) : takeEscape ('D' :: ' ' :: s) = (.char '\r', s) := rfl

theorem takeEscape_formFeed (s : Text) : takeEscape ('C' :: ' ' :: s) = (.char '\x0c', s) := rfl

theorem takeEscape_tab (s : Text) : takeEscape ('9' :: ' ' :: s) = (.char '\t', s) := rfl

theorem takeEscape_digit (hc : c.isDigit = true) (s : Text) : takeEscape ('3' :: c :: ' ' :: s) = (c, s) := by
  obtain ⟨h₁, h₂⟩ := toNat_of_isDigit hc
  rw [← CodePoint.ofNat_toNat c]
  generalize c.toNat = n at h₁ h₂
  interval_cases n <;> rfl

/-- A backslash and a character of which the backslash makes itself, or a number for one of the newline characters. -/
inductive Escapes : Text → CodePoint → Prop
  | plain {c : CodePoint} (hx : Text.isHexDigit c = false) (hn : escapeNewline? c = none) : Escapes ['\\', c] c
  | lineFeed : Escapes "\\A " '\n'
  | carriageReturn : Escapes "\\D " '\r'
  | formFeed : Escapes "\\C " '\x0c'
  | tab : Escapes "\\9 " '\t'
  | digit {c : CodePoint} (hd : c.isDigit = true) : Escapes ['\\', '3', c, ' '] c

namespace Escapes

variable {t s : Text}

/-- What an escape stands for is taken, and nothing behind it. -/
theorem exists_takeEscape (h : Escapes t c) : ∃ u, t = .char '\\' :: u ∧ u ≠ [] ∧
    (∀ s : Text, (u ++ s).head? ≠ some (.char '\n')) ∧ ∀ s, takeEscape (u ++ s) = (c, s) := by
  cases h with
  | plain hx hn =>
    have hl : c ≠ '\n' := by
      rintro rfl
      cases hn
    exact ⟨[c], rfl, by simp, by simpa using hl, takeEscape_plain hx⟩
  | lineFeed => exact ⟨['A', ' '], rfl, by simp, by simp, takeEscape_lineFeed⟩
  | carriageReturn => exact ⟨['D', ' '], rfl, by simp, by simp, takeEscape_carriageReturn⟩
  | formFeed => exact ⟨['C', ' '], rfl, by simp, by simp, takeEscape_formFeed⟩
  | tab => exact ⟨['9', ' '], rfl, by simp, by simp, takeEscape_tab⟩
  | digit hd => exact ⟨['3', c, ' '], rfl, by simp, by simp, takeEscape_digit hd⟩

theorem startsEscape_append (h : Escapes t c) (s : Text) : startsEscape (t ++ s) = true := by
  obtain ⟨u, rfl, hu, hn, -⟩ := h.exists_takeEscape
  have hn := hn s
  cases u with
  | nil => exact absurd rfl hu
  | cons d u =>
    have hd : d ≠ '\n' := fun hd => hn (by rw [hd]; rfl)
    rw [List.cons_append, List.cons_append]
    unfold startsEscape
    split
    · rename_i heq
      exact absurd (List.cons.inj (List.cons.inj heq).2).1 hd
    · rfl
    · rename_i h₁ h₂
      exact absurd rfl (h₂ _)

theorem takeName_append (h : Escapes t c) (s : Text) : takeName (t ++ s) = (c :: (takeName s).1, (takeName s).2) := by
  have he := h.startsEscape_append s
  obtain ⟨u, rfl, -, -, ht⟩ := h.exists_takeEscape
  rw [List.cons_append] at he ⊢
  rw [takeName_cons_escape (by decide) he, ht]

theorem takeString_append (h : Escapes t c) (s : Text) :
    takeString '"' (t ++ s) = (c :: (takeString '"' s).1, (takeString '"' s).2) := by
  obtain ⟨u, rfl, hu, hn, ht⟩ := h.exists_takeEscape
  rw [List.cons_append, takeString_escape (by decide) (by simp [hu]) (hn s), ht]

theorem takeUrl_append (h : Escapes t c) (s : Text) : takeUrl (t ++ s) = (c :: (takeUrl s).1, (takeUrl s).2) := by
  have he := h.startsEscape_append s
  obtain ⟨u, rfl, -, -, ht⟩ := h.exists_takeEscape
  rw [List.cons_append] at he ⊢
  rw [takeUrl_escape he, ht]

end Escapes

theorem escapes_of_escapeNewline? {t : Text} (h : escapeNewline? c = some t) : Escapes t c := by
  unfold escapeNewline? at h
  split_ifs at h with h₁ h₂ h₃
  · obtain rfl := Option.some.inj h
    exact h₁ ▸ .lineFeed
  · obtain rfl := Option.some.inj h
    exact h₂ ▸ .carriageReturn
  · obtain rfl := Option.some.inj h
    exact h₃ ▸ .formFeed

/-- A character behind a backslash, unless it is a newline or would be taken for a number. -/
theorem escapes_getD (hx : Text.isHexDigit c = false) : Escapes ((escapeNewline? c).getD ['\\', c]) c := by
  cases he : escapeNewline? c with
  | some t => exact escapes_of_escapeNewline? he
  | none => exact .plain hx he

theorem writeNameChar_cases (c : CodePoint) :
    writeNameChar c = [c] ∧ isNameChar c = true ∨ Escapes (writeNameChar c) c ∧ isNameChar c = false := by
  unfold writeNameChar
  split
  · exact .inl ⟨rfl, ‹_›⟩
  · rename_i hc
    obtain ⟨⟨hs, hd⟩, -⟩ := by simpa [isNameChar] using hc
    exact .inr ⟨escapes_getD (isHexDigit_of_not hs hd), by simpa using hc⟩

theorem writeNameStart_cases (c : CodePoint) :
    writeNameStart c = [c] ∧ isNameStart c = true ∨ Escapes (writeNameStart c) c ∧ isNameStart c = false := by
  unfold writeNameStart
  split
  · exact .inl ⟨rfl, ‹_›⟩
  · rename_i hc
    have hc : isNameStart c = false := by simpa using hc
    split
    · exact .inr ⟨.digit ‹_›, hc⟩
    · rename_i hd
      exact .inr ⟨escapes_getD (isHexDigit_of_not hc (by simpa using hd)), hc⟩

end Escapes

section Names

variable {n m : Text} {c : CodePoint}

theorem takeName_writeNameChar (c : CodePoint) (s : Text) :
    takeName (writeNameChar c ++ s) = (c :: (takeName s).1, (takeName s).2) := by
  rcases writeNameChar_cases c with ⟨hw, hc⟩ | ⟨he, -⟩
  · rw [hw]
    exact takeName_cons_char hc s
  · exact he.takeName_append s

theorem takeName_writeNameStart (c : CodePoint) (s : Text) :
    takeName (writeNameStart c ++ s) = (c :: (takeName s).1, (takeName s).2) := by
  rcases writeNameStart_cases c with ⟨hw, hc⟩ | ⟨he, -⟩
  · rw [hw]
    exact takeName_cons_char (isNameChar_of_isNameStart hc) s
  · exact he.takeName_append s

/-- A name ends before a text that does not carry it on. -/
theorem takeName_of_startsHash (h : startsHash m = false) : takeName m = ([], m) := by
  obtain ⟨hn, he⟩ := Bool.or_eq_false_iff.1 h
  cases m with
  | nil => rw [takeName]
  | cons c m => exact takeName_cons_other (by simpa using hn) he

theorem takeName_writeName (n : Text) (h : startsHash m = false) : takeName (writeName n ++ m) = (n, m) := by
  induction n with
  | nil => exact takeName_of_startsHash h
  | cons c n ih =>
    rw [writeName, List.flatMap_cons, List.append_assoc, takeName_writeNameChar, ← writeName, ih]

theorem takeName_writeIdentBody (n : Text) (h : startsHash m = false) : takeName (writeIdentBody n ++ m) = (n, m) := by
  cases n with
  | nil => exact takeName_of_startsHash h
  | cons c n => rw [writeIdentBody, List.append_assoc, takeName_writeNameStart, takeName_writeName n h]

theorem takeName_writeIdent (n : Text) (h : startsHash m = false) : takeName (writeIdent n ++ m) = (n, m) := by
  have dash (s : Text) : takeName ('-' :: s) = (.char '-' :: (takeName s).1, (takeName s).2) :=
    takeName_cons_char (by decide) s
  unfold writeIdent
  split
  · have hd : Escapes ['\\', '-'] '-' := .plain (by decide) (by decide)
    rw [hd.takeName_append, takeName_of_startsHash h]
  · rename_i s
    rw [List.cons_append, List.cons_append, dash, dash, takeName_writeName s h]
  · rename_i s _ _
    rw [List.cons_append, dash, takeName_writeIdentBody s h]
  · exact takeName_writeIdentBody n h

/-- The first character of a written name is its own, if a name can hold it, or a backslash. -/
theorem exists_writeNameChar_append (c : CodePoint) (s : Text) :
    (∃ t, writeNameChar c ++ s = c :: t ∧ isNameChar c = true) ∨ ∃ t, writeNameChar c ++ s = .char '\\' :: t := by
  rcases writeNameChar_cases c with ⟨hw, hc⟩ | ⟨he, -⟩
  · exact .inl ⟨s, by rw [hw]; rfl, hc⟩
  · obtain ⟨u, hu, -⟩ := he.exists_takeEscape
    exact .inr ⟨u ++ s, by rw [hu]; rfl⟩

theorem writeIdent_of_isNameStart (h : isNameStart c = true) (n : Text) : writeIdent (c :: n) = c :: writeName n := by
  have hd : c ≠ '-' := by
    rintro rfl
    revert h
    decide
  unfold writeIdent
  split
  · rename_i heq
    exact absurd (List.cons.inj heq).1 hd
  · rename_i heq
    exact absurd (List.cons.inj heq).1 hd
  · rename_i heq
    exact absurd (List.cons.inj heq).1 hd
  · rw [writeIdentBody, writeNameStart, if_pos h]
    rfl

theorem exists_writeIdent_append (c : CodePoint) (n m : Text) :
    (∃ t, writeIdent (c :: n) ++ m = c :: t ∧ isNameChar c = true) ∨ ∃ t, writeIdent (c :: n) ++ m = .char '\\' :: t := by
  have hd : isNameChar '-' = true := by decide
  unfold writeIdent
  split
  · exact .inr ⟨_, rfl⟩
  · rename_i heq
    obtain ⟨rfl, -⟩ := List.cons.inj heq
    exact .inl ⟨_, rfl, hd⟩
  · rename_i heq
    obtain ⟨rfl, -⟩ := List.cons.inj heq
    exact .inl ⟨_, rfl, hd⟩
  · rw [writeIdentBody, List.append_assoc]
    rcases writeNameStart_cases c with ⟨hw, hc⟩ | ⟨he, -⟩
    · exact .inl ⟨writeName n ++ m, by rw [hw]; rfl, isNameChar_of_isNameStart hc⟩
    · obtain ⟨u, hu, -⟩ := he.exists_takeEscape
      exact .inr ⟨u ++ (writeName n ++ m), by rw [hu]; rfl⟩

theorem startsIdent_of_startsEscape {s : Text} (h : startsEscape s = true) : startsIdent s = true := by
  cases s with
  | nil => cases h
  | cons c s =>
    by_cases hc : c = '\\'
    · rw [startsIdent_of_ne (by rw [hc]; decide), h, Bool.or_true]
    · rw [startsEscape_of_ne hc] at h
      cases h

theorem startsIdent_writeIdentBody {c : CodePoint} (n m : Text) :
    startsIdent (writeIdentBody (c :: n) ++ m) = true ∧ startsIdent ('-' :: (writeIdentBody (c :: n) ++ m)) = true := by
  rw [writeIdentBody, List.append_assoc]
  rcases writeNameStart_cases c with ⟨hw, hc⟩ | ⟨he, -⟩
  · have hd : c ≠ '-' := by
      rintro rfl
      revert hc
      decide
    rw [hw, List.singleton_append, startsIdent_of_ne hd, hc, Bool.true_or]
    exact ⟨rfl, by simp [startsIdent, hc]⟩
  · have he := he.startsEscape_append (writeName n ++ m)
    exact ⟨startsIdent_of_startsEscape he, by simp [startsIdent, he]⟩

/-- A written name starts like one, whatever stands behind it. -/
theorem startsIdent_writeIdent (hn : n ≠ []) (m : Text) : startsIdent (writeIdent n ++ m) = true := by
  unfold writeIdent
  split
  · rfl
  · rfl
  · rename_i s h₁ h₂
    cases s with
    | nil => exact absurd rfl h₁
    | cons c s => exact (startsIdent_writeIdentBody s m).2
  · cases n with
    | nil => exact absurd rfl hn
    | cons c n => exact (startsIdent_writeIdentBody n m).1

end Names

section Strings

variable {c : CodePoint}

theorem writeStringChar_cases (c : CodePoint) :
    writeStringChar c = [c] ∧ c ≠ '"' ∧ c ≠ '\\' ∧ c ≠ '\n' ∨ Escapes (writeStringChar c) c := by
  unfold writeStringChar
  split
  · rename_i hc
    exact .inr (by rcases hc with rfl | rfl <;> exact .plain (by decide) (by decide))
  · rename_i hc
    cases he : escapeNewline? c with
    | some t => exact .inr (escapes_of_escapeNewline? he)
    | none =>
      refine .inl ⟨rfl, not_or.1 hc |>.1, not_or.1 hc |>.2, ?_⟩
      rintro rfl
      cases he

theorem takeString_writeString (v s : Text) :
    takeString '"' (v.flatMap writeStringChar ++ s) = (v ++ (takeString '"' s).1, (takeString '"' s).2) := by
  induction v with
  | nil => rfl
  | cons c v ih =>
    rw [List.flatMap_cons, List.append_assoc]
    rcases writeStringChar_cases c with ⟨hw, hq, he, hn⟩ | he
    · rw [hw, List.singleton_append, takeString_plain hq he hn, ih, List.cons_append]
    · rw [he.takeString_append, ih, List.cons_append]

end Strings

section Urls

/-- Characters of a URL that are not read as an error when they are written as they are. -/
def IsPrintable (v : Text) : Prop := ∀ c ∈ v, isNonPrintable c = false

theorem writeUrlChar_cases {c : CodePoint} (hc : isNonPrintable c = false) :
    writeUrlChar c = [c] ∧ c ≠ ')' ∧ isSpace c = false ∧ c ≠ '\\' ∧ ¬ IsUrlBreak c ∨ Escapes (writeUrlChar c) c := by
  unfold writeUrlChar
  split
  · rename_i h
    exact .inr (by rcases h with rfl | rfl | rfl | rfl | rfl | rfl <;> exact .plain (by decide) (by decide))
  · rename_i h
    split
    · rename_i ht
      exact .inr (ht ▸ .tab)
    · rename_i ht
      cases he : escapeNewline? c with
      | some t => exact .inr (escapes_of_escapeNewline? he)
      | none =>
        have hn : c ≠ '\n' := by
          rintro rfl
          cases he
        simp only [not_or] at h
        refine .inl ⟨rfl, h.2.2.2.2.2, by simp [isSpace, h, ht, hn], h.2.2.1, ?_⟩
        simp [IsUrlBreak, h, hc]

theorem takeUrl_writeUrl {v : Text} (hv : IsPrintable v) (s : Text) :
    takeUrl (v.flatMap writeUrlChar ++ s) = (v ++ (takeUrl s).1, (takeUrl s).2) := by
  induction v with
  | nil => rfl
  | cons c v ih =>
    obtain ⟨hc, hv⟩ := List.forall_mem_cons.1 hv
    rw [List.flatMap_cons, List.append_assoc]
    rcases writeUrlChar_cases hc with ⟨hw, hp, hs, he, hb⟩ | he
    · rw [hw, List.singleton_append, takeUrl_plain hp hs (startsEscape_of_ne he _) hb, ih hv, List.cons_append]
    · rw [he.takeUrl_append, ih hv, List.cons_append]

end Urls

end StylePrune.Css
