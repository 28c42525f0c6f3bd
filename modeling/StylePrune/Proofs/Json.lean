import StylePrune.Json.Reader
import StylePrune.Json.Writer
import StylePrune.Proofs.Table
import StylePrune.Proofs.Utf8

/-!
Documents of objects and strings read back as they were written. Each value is read from its own text, whatever
follows, with no more fuel than the text is long, wherever the levels it has may still be opened.
-/

set_option autoImplicit false

namespace StylePrune.Json

variable {s r : Text} {n depth levels nesting : Nat}

theorem skipSpace_cons_of_not {c : CodePoint} (h : isSpace c = false) (s : Text) : skipSpace (c :: s) = c :: s := by
  rw [skipSpace, List.dropWhile_cons_of_neg (by simp [h])]

theorem skipSpace_newline (depth : Nat) (s : Text) : skipSpace (newline depth ++ s) = skipSpace s := by
  unfold skipSpace
  rw [List.dropWhile_append_of_pos]
  intro c hc
  rcases List.mem_cons.1 hc with rfl | hc
  · rfl
  · rw [List.eq_of_mem_replicate hc]
    rfl

theorem takeUnit?_append {t : Text} (h : takeUnit? t = some (n, [])) (s : Text) : takeUnit? (t ++ s) = some (n, s) := by
  match t, h with
  | [a, b, c, d], h =>
    rw [takeUnit?] at h
    simp only [List.cons_append, List.nil_append, takeUnit?]
    split at h
    · rename_i hx
      obtain ⟨hn, -⟩ := Prod.mk.inj (Option.some.inj h)
      rw [if_pos hx, hn]
    · cases h
  | _ :: _ :: _ :: _ :: _ :: _, h =>
    rw [takeUnit?] at h
    split at h
    · cases (Prod.mk.inj (Option.some.inj h)).2
    · cases h

theorem takeUnit?_paddedHex : ∀ n < 0x20, takeUnit? (Text.paddedHex 4 n) = some (n, []) := by decide

/-- A character is read from what is written for it. -/
theorem takeString?_writeChar (c : CodePoint) (n : Nat) (s : Text) :
    takeString? (n + 1) (writeChar c ++ s) = (takeString? n s).map fun t => (c :: t.1, t.2) := by
  -- two characters stand for one
  have escape {e : CodePoint} (he : e ≠ .char 'u') (hs : simpleEscape? e = some c) :
      takeString? (n + 1) ('\\' :: e :: s) = (takeString? n s).map fun t => (c :: t.1, t.2) := by
    rw [takeString?, if_neg (by decide), if_pos rfl, hs]
    exact he
  unfold writeChar
  split
  · rename_i h
    subst h
    exact escape (by decide) (by decide)
  rename_i hquote
  split
  · rename_i h
    subst h
    exact escape (by decide) (by decide)
  rename_i hback
  iterate 5
    split
    · rename_i h
      subst h
      exact escape (by decide) (by decide)
  split
  · rename_i hlow
    have hu : takeCodePoint? (Text.paddedHex 4 c.toNat ++ s) = some (c, s) := by
      have hhigh : CodePoint.isHigh c.toNat = false := by
        simp only [CodePoint.isHigh, Bool.and_eq_false_iff, decide_eq_false_iff_not]
        omega
      rw [takeCodePoint?, takeUnit?_append (takeUnit?_paddedHex _ hlow)]
      simp only [hhigh, Bool.false_eq_true, if_false, CodePoint.ofNat_toNat]
    have hw : writeUnit c.toNat ++ s = .char '\\' :: .char 'u' :: (Text.paddedHex 4 c.toNat ++ s) := rfl
    rw [hw, takeString?, if_neg (by decide), if_pos rfl, hu]
  · rename_i hlow
    rw [List.singleton_append, takeString?.eq_def]
    dsimp only
    rw [if_neg hquote, if_neg hback, if_neg hlow]

theorem length_writeChar_pos (c : CodePoint) : 0 < (writeChar c).length := by
  unfold writeChar
  iterate 8
    split
    · exact Nat.zero_lt_succ _
  exact Nat.zero_lt_one

/-- A string is read from what is written for it. -/
theorem takeString?_flatMap_writeChar (s r : Text) {n : Nat} (h : (s.flatMap writeChar).length < n) :
    takeString? n (s.flatMap writeChar ++ .char '"' :: r) = some (s, r) := by
  induction s generalizing n with
  | nil =>
    obtain ⟨m, rfl⟩ : ∃ m, n = m + 1 := ⟨n - 1, by omega⟩
    rfl
  | cons c s ih =>
    obtain ⟨m, rfl⟩ : ∃ m, n = m + 1 := ⟨n - 1, by omega⟩
    have hc := length_writeChar_pos c
    rw [List.flatMap_cons, List.length_append] at h
    rw [List.flatMap_cons, List.append_assoc, takeString?_writeChar, ih (by omega), Option.map_some]

/-- A value is read from its own text, whatever follows it, where so many levels may be opened. -/
def ReadsBack (levels depth : Nat) (v : Json) : Prop := ∀ n nesting r, levels ≤ nesting → (write depth v).length < n →
  takeValue n nesting (write depth v ++ r) = .ok (v, r) ∧ skipSpace (write depth v ++ r) = write depth v ++ r

theorem readsBack_string (levels depth : Nat) (s : Text) : ReadsBack levels depth (.string s) := by
  intro n nesting r _ hn
  obtain ⟨m, rfl⟩ : ∃ m, n = m + 1 := ⟨n - 1, by omega⟩
  have hw : write depth (.string s) ++ r = .char '"' :: (s.flatMap writeChar ++ .char '"' :: r) := by
    simp [write, writeString]
  refine ⟨?_, by rw [hw, skipSpace_cons_of_not (by decide)]⟩
  rw [hw, takeValue, takeString?_flatMap_writeChar s r (by rw [List.length_append, List.length_cons]; omega)]
  rfl

theorem writeString_append (k r : Text) :
    writeString k ++ r = .char '"' :: (k.flatMap writeChar ++ .char '"' :: r) := by
  simp [writeString]

section Fields

variable {v : Json} (hv : ReadsBack levels depth v) (hl : levels ≤ nesting) (hn : (write depth v).length < n)
include hv hl hn

/-- A field is read up to what follows its value. -/
theorem takeFields_of_last (k : Text) {rest : Text} (hr : skipSpace rest = .char '\x7d' :: r) :
    takeFields (n + 1) nesting (writeString k ++ (": " ++ (write depth v ++ rest))) = .ok ([(k, v)], r) := by
  obtain ⟨hvalue, hspace⟩ := hv n nesting rest hl hn
  have hcolon : skipSpace (": " ++ (write depth v ++ rest)) = .char ':' :: .char ' ' :: (write depth v ++ rest) := rfl
  have hblank : skipSpace (.char ' ' :: (write depth v ++ rest)) = write depth v ++ rest := hspace
  rw [writeString_append, takeFields,
    takeString?_flatMap_writeChar k _ (by rw [List.length_append, List.length_cons]; omega)]
  simp only [hcolon, hblank, hvalue, hr]

theorem takeFields_of_next (k : Text) {rest : Text} (hr : skipSpace rest = .char ',' :: r) :
    takeFields (n + 1) nesting (writeString k ++ (": " ++ (write depth v ++ rest))) =
      (takeFields n nesting (skipSpace r)).map fun t => ((k, v) :: t.1, t.2) := by
  obtain ⟨hvalue, hspace⟩ := hv n nesting rest hl hn
  have hcolon : skipSpace (": " ++ (write depth v ++ rest)) = .char ':' :: .char ' ' :: (write depth v ++ rest) := rfl
  have hblank : skipSpace (.char ' ' :: (write depth v ++ rest)) = write depth v ++ rest := hspace
  rw [writeString_append, takeFields,
    takeString?_flatMap_writeChar k _ (by rw [List.length_append, List.length_cons]; omega)]
  simp only [hcolon, hblank, hvalue, hr]

end Fields

/-- Fields are read from what is written for them. -/
theorem takeFields_write {fs : List (Text × Json)} {k : Text} {v : Json} (outer : Nat) (r : Text)
    (hv : ReadsBack levels depth v) (hfs : ∀ e ∈ fs, ReadsBack levels depth e.2) (hl : levels ≤ nesting)
    (hn : (writeString k ++ (": " ++ (write depth v ++ writeFields depth fs))).length < n) :
    takeFields n nesting (writeString k ++ (": " ++ (write depth v ++ (writeFields depth fs ++
      (newline outer ++ .char '\x7d' :: r))))) = .ok ((k, v) :: fs, r) := by
  obtain ⟨m, rfl⟩ : ∃ m, n = m + 1 := ⟨n - 1, by omega⟩
  have hquotes : 2 ≤ (writeString k).length := by simp [writeString]
  simp only [List.length_append] at hn
  induction fs generalizing k v m with
  | nil =>
    refine takeFields_of_last (n := m) hv hl (by omega) k ?_
    rw [writeFields, List.nil_append, skipSpace_newline, skipSpace_cons_of_not (by decide)]
  | cons f fs ih =>
    obtain ⟨hf, hfs⟩ := List.forall_mem_cons.1 hfs
    have hnext : skipSpace (writeFields depth (f :: fs) ++ (newline outer ++ .char '\x7d' :: r)) =
        .char ',' :: (newline depth ++ (writeString f.1 ++ ((": " : Text) ++ (write depth f.2 ++
          (writeFields depth fs ++ (newline outer ++ .char '\x7d' :: r)))))) := by
      simp [writeFields, skipSpace_cons_of_not (show isSpace ',' = false by decide)]
    have hlen : (writeFields depth (f :: fs)).length = 1 + (newline depth).length + ((writeString f.1).length +
        ((": " : Text).length + ((write depth f.2).length + (writeFields depth fs).length))) := by
      simp [writeFields]
      omega
    obtain ⟨m, rfl⟩ : ∃ k, m = k + 1 := ⟨m - 1, by omega⟩
    rw [takeFields_of_next (n := m + 1) hv hl (by omega) k hnext, skipSpace_newline, writeString_append,
      skipSpace_cons_of_not (by decide), ← writeString_append, ih hf hfs m (by simp [writeString]) (by omega)]
    rfl

/-- An object of values that read back reads back, if no name stands twice. -/
theorem readsBack_object {fields : List (Text × Json)} (hd : (fields.map Prod.fst).Nodup)
    (hv : ∀ e ∈ fields, ReadsBack levels (depth + 1) e.2) : ReadsBack (levels + 1) depth (.object fields) := by
  intro n nesting r hl hn
  obtain ⟨m, rfl⟩ : ∃ m, n = m + 1 := ⟨n - 1, by omega⟩
  obtain ⟨inner, rfl⟩ : ∃ k, nesting = k + 1 := ⟨nesting - 1, by omega⟩
  cases fields with
  | nil => exact ⟨rfl, rfl⟩
  | cons f fs =>
    obtain ⟨hf, hfs⟩ := List.forall_mem_cons.1 hv
    have hw : write depth (.object (f :: fs)) ++ r =
        .char '\x7b' :: (newline (depth + 1) ++ (writeString f.1 ++ ((": " : Text) ++
          (write (depth + 1) f.2 ++ (writeFields (depth + 1) fs ++ (newline depth ++ .char '\x7d' :: r)))))) := by
      simp [write]
    have hlen : (writeString f.1 ++ (": " ++ (write (depth + 1) f.2 ++ writeFields (depth + 1) fs))).length < m := by
      have := congrArg List.length hw
      simp only [List.length_append, List.length_cons] at this ⊢
      omega
    refine ⟨?_, by rw [hw, skipSpace_cons_of_not (by decide)]⟩
    have hread := takeFields_write depth r hf hfs (Nat.le_of_succ_le_succ hl) hlen
    have hopen : takeValue (m + 1) (inner + 1) (.char '\x7b' :: (newline (depth + 1) ++ (writeString f.1 ++ ((": " : Text) ++
        (write (depth + 1) f.2 ++ (writeFields (depth + 1) fs ++ (newline depth ++ .char '\x7d' :: r))))))) =
        .ok (.object (Table.ofList (f :: fs)).entries, r) := by
      rw [takeValue, skipSpace_newline, writeString_append, skipSpace_cons_of_not (by decide)]
      rw [writeString_append] at hread
      change Except.map _ (takeFields m inner _) = _
      rw [hread]
      rfl
    rw [hw, hopen, Table.entries_ofList hd]

/-- A document that reads back is what its own text says. -/
theorem parse_render {v : Json} (h : ReadsBack levels 0 v) (hl : levels ≤ maxNesting) : parse v.render = .ok v := by
  obtain ⟨hvalue, hspace⟩ := h (2 * v.render.length + 1) maxNesting [] hl (show v.render.length < _ by omega)
  rw [List.append_nil] at hvalue hspace
  rw [parse, render, hspace]
  simp only [render] at hvalue
  simp only [hvalue]
  rfl

end StylePrune.Json
