import StylePrune.Proofs.Css.Leaves

/-!
How far the readers of names, strings, URLs and numbers look. Braces and semicolons stop all of them
but those of strings, URLs, comments and escapes, so what ends inside a text does not depend on what
stands behind the text, where that is nothing or starts with a brace or a semicolon.
-/

set_option autoImplicit false

namespace StylePrune.Css

/-- Characters that end a token before them and need nothing after them. -/
def IsHard (c : CodePoint) : Prop := c = '\x7b' ∨ c = '\x7d' ∨ c = ';'

instance (c : CodePoint) : Decidable (IsHard c) := inferInstanceAs (Decidable (_ ∨ _ ∨ _))

/-- Nothing, or a text that starts with a brace or a semicolon. -/
def Stops (v : Text) : Prop := ∀ c ∈ v.head?, IsHard c

theorem stops_nil : Stops [] := by simp [Stops]

theorem stops_cons {c : CodePoint} (h : IsHard c) (v : Text) : Stops (c :: v) := by simpa [Stops] using h

/-- A class of characters without braces and semicolons. -/
def Avoids (p : CodePoint → Bool) : Prop := ∀ c, IsHard c → p c = false

theorem avoids_of {p : CodePoint → Bool} (h₁ : p '\x7b' = false) (h₂ : p '\x7d' = false) (h₃ : p ';' = false) :
    Avoids p := by
  rintro c (rfl | rfl | rfl)
  · exact h₁
  · exact h₂
  · exact h₃

theorem avoids_isSpace : Avoids isSpace := avoids_of (by decide) (by decide) (by decide)

theorem avoids_isNameStart : Avoids isNameStart := avoids_of (by decide) (by decide) (by decide)

theorem avoids_isNameChar : Avoids isNameChar := avoids_of (by decide) (by decide) (by decide)

theorem avoids_isDigit : Avoids CodePoint.isDigit := avoids_of (by decide) (by decide) (by decide)

theorem avoids_isHexDigit : Avoids Text.isHexDigit := avoids_of (by decide) (by decide) (by decide)

section

variable {p : CodePoint → Bool} {v w : Text}

theorem takeWhile_of_stops (hp : Avoids p) (hv : Stops v) : v.takeWhile p = [] := by
  cases v with
  | nil => rfl
  | cons c v => simp [hp c (hv c rfl)]

theorem takeWhile_append_of_stops (hp : Avoids p) (hv : Stops v) (s : Text) :
    (s ++ v).takeWhile p = s.takeWhile p := by
  induction s with
  | nil => exact takeWhile_of_stops hp hv
  | cons c s ih => by_cases hc : p c <;> simp [hc, ih]

theorem dropWhile_append_of_stops (hp : Avoids p) (hv : Stops v) (s : Text) :
    (s ++ v).dropWhile p = s.dropWhile p ++ v := by
  induction s with
  | nil =>
    cases v with
    | nil => rfl
    | cons c v => simp [hp c (hv c rfl)]
  | cons c s ih => by_cases hc : p c <;> simp [hc, ih]

theorem takeUpTo_of_stops (hp : Avoids p) (hv : Stops v) (n : Nat) : takeUpTo p n v = ([], v) := by
  cases v with
  | nil => cases n <;> rfl
  | cons c v => cases n <;> simp [takeUpTo, hp c (hv c rfl)]

theorem takeUpTo_append_of_stops (hp : Avoids p) (hv : Stops v) (n : Nat) (s : Text) :
    takeUpTo p n (s ++ v) = ((takeUpTo p n s).1, (takeUpTo p n s).2 ++ v) := by
  induction s generalizing n with
  | nil =>
    rw [List.nil_append, takeUpTo_of_stops hp hv, takeUpTo_of_stops hp stops_nil]
    rfl
  | cons c s ih =>
    cases n with
    | zero => rfl
    | succ n => by_cases hc : p c <;> simp [takeUpTo, hc, ih]

/-- A pattern without braces and semicolons is found inside a text or not at all. -/
theorem after?_append_of_stops {q : Text} (hq : ∀ c ∈ q, ¬ IsHard c) (hv : Stops v) (s : Text) :
    Text.after? q (s ++ v) = (Text.after? q s).map (· ++ v) := by
  induction q generalizing s with
  | nil => simp [Text.after?]
  | cons a q ih =>
    cases s with
    | nil =>
      cases v with
      | nil => rfl
      | cons c v =>
        have hne : a ≠ c := by
          rintro rfl
          exact hq a List.mem_cons_self (hv a rfl)
        simp [Text.after?, hne]
    | cons b s =>
      have ih := ih (fun c hc => hq c (List.mem_cons_of_mem a hc)) s
      by_cases hab : a = b <;> simp [Text.after?, hab, ih]

theorem startsEscape_of_ne {c : CodePoint} (h : c ≠ '\\') (s : Text) : startsEscape (c :: s) = false := by
  unfold startsEscape
  split
  · rename_i heq
    exact absurd (List.cons.inj heq).1 h
  · rename_i heq
    exact absurd (List.cons.inj heq).1 h
  · rfl

theorem IsHard.ne {c d : CodePoint} (h : IsHard c) (hd : ¬ IsHard d) : c ≠ d := by
  rintro rfl
  exact hd h

theorem startsEscape_of_stops (hv : Stops v) : startsEscape v = false := by
  cases v with
  | nil => rfl
  | cons c v => exact startsEscape_of_ne ((hv c rfl).ne (by decide)) v

theorem startsEscape_append (hv : Stops v) (s : Text) : startsEscape (s ++ v) = startsEscape s := by
  cases s with
  | nil => exact startsEscape_of_stops hv
  | cons c s =>
    by_cases hc : c = '\\'
    · subst hc
      cases s with
      | nil =>
        cases v with
        | nil => rfl
        | cons d v =>
          have hd : d ≠ '\n' := (hv d rfl).ne (by decide)
          simp [startsEscape, hd]
      | cons d s =>
        by_cases hd : d = '\n' <;> simp [startsEscape, hd]
    · rw [List.cons_append, startsEscape_of_ne hc, startsEscape_of_ne hc]

theorem startsIdent_append (hv : Stops v) (s : Text) : startsIdent (s ++ v) = startsIdent s := by
  cases s with
  | nil =>
    cases v with
    | nil => rfl
    | cons c v =>
      have hc : c ≠ '-' := (hv c rfl).ne (by decide)
      rw [List.nil_append, startsIdent_of_ne hc, avoids_isNameStart c (hv c rfl), startsEscape_of_stops hv]
      rfl
  | cons c s =>
    have he := startsEscape_append hv (c :: s)
    by_cases hc : c = '-'
    · subst hc
      have he := startsEscape_append hv s
      cases s with
      | nil =>
        cases v with
        | nil => rfl
        | cons d v =>
          have hd : d ≠ '-' := (hv d rfl).ne (by decide)
          have hn := avoids_isNameStart d (hv d rfl)
          have hv := startsEscape_of_stops hv
          have hn' : startsEscape [] = false := rfl
          simp [startsIdent, hd, hn, hv, hn']
      | cons d s => simp only [List.cons_append, startsIdent] at he ⊢; rw [he]
    · rw [List.cons_append, startsIdent_of_ne hc, startsIdent_of_ne hc, ← List.cons_append, he]

theorem takeEscape_append (hv : Stops v) {s : Text} (hs : s ≠ []) :
    takeEscape (s ++ v) = ((takeEscape s).1, (takeEscape s).2 ++ v) := by
  have hx := takeUpTo_append_of_stops avoids_isHexDigit hv 6 s
  have hsp (r : Text) := takeUpTo_append_of_stops avoids_isSpace hv 1 r
  unfold takeEscape
  rw [hx]
  cases hu : takeUpTo Text.isHexDigit 6 s with
  | mk ds r =>
    cases ds with
    | nil =>
      cases s with
      | nil => exact absurd rfl hs
      | cons c s => rfl
    | cons d ds => simp [hsp]

theorem takeName_of_stops (hv : Stops v) : takeName v = ([], v) := by
  cases v with
  | nil => simp [takeName]
  | cons c v =>
    have he := startsEscape_of_stops hv
    rw [takeName]
    simp [avoids_isNameChar c (hv c rfl), he]

theorem takeEscape_of_stops (hv : Stops v) : (takeEscape v).2 = v.tail := by
  unfold takeEscape
  rw [takeUpTo_of_stops avoids_isHexDigit hv]
  cases v <;> rfl

/-- The reader `R` stops inside `s` whatever stands behind, which is left over with its rest. -/
def Steady {α : Type} (R : Text → α × Text) (s : Text) : Prop :=
  ∀ v, Stops v → R (s ++ v) = ((R s).1, (R s).2 ++ v)

/-- The reader `R` does not stop at the end of `s` but takes at least one more character. -/
def RunsOn {α : Type} (R : Text → α × Text) (s : Text) : Prop :=
  ∀ v, Stops v → (R (s ++ v)).2.length ≤ v.tail.length

theorem takeName_cons_char {c : CodePoint} (hc : isNameChar c = true) (s : Text) :
    takeName (c :: s) = (c :: (takeName s).1, (takeName s).2) := by
  rw [takeName]
  simp [hc]

theorem takeName_cons_escape {c : CodePoint} {s : Text} (hc : isNameChar c = false)
    (he : startsEscape (c :: s) = true) :
    takeName (c :: s) = ((takeEscape s).1 :: (takeName (takeEscape s).2).1, (takeName (takeEscape s).2).2) := by
  rw [takeName]
  simp [hc, he]

theorem takeName_cons_other {c : CodePoint} {s : Text} (hc : isNameChar c = false)
    (he : startsEscape (c :: s) = false) : takeName (c :: s) = ([], c :: s) := by
  rw [takeName]
  simp [hc, he]

/-- A name ends inside the text unless the text ends in a backslash that belongs to it. -/
theorem takeName_steady_or (s : Text) : Steady takeName s ∨ RunsOn takeName s := by
  fun_induction takeName s with
  | case1 =>
    refine .inl fun v hv => ?_
    rw [List.nil_append, takeName_of_stops hv, takeName_of_stops stops_nil]
    rfl
  | case2 c s hc _ _ _ ih =>
    refine ih.imp (fun h v hv => ?_) fun h v hv => ?_
    · rw [List.cons_append, takeName_cons_char hc, takeName_cons_char hc, h v hv]
    · rw [List.cons_append, takeName_cons_char hc]
      exact h v hv
  | case3 c s hc he _ _ _ _ ih =>
    have hc : isNameChar c = false := by simpa using hc
    have he (v : Text) (hv : Stops v) : startsEscape (c :: (s ++ v)) = true := by
      rw [← List.cons_append, startsEscape_append hv, he]
    have he' := by simpa using he [] stops_nil
    by_cases hs : s = []
    · subst hs
      refine .inr fun v hv => ?_
      rw [List.cons_append, takeName_cons_escape hc (he v hv), List.nil_append, takeEscape_of_stops hv]
      exact takeName_length _
    · refine ih.imp (fun h v hv => ?_) fun h v hv => ?_
      · rw [List.cons_append, takeName_cons_escape hc (he v hv), takeName_cons_escape hc he',
          takeEscape_append hv hs, h v hv]
      · rw [List.cons_append, takeName_cons_escape hc (he v hv), takeEscape_append hv hs]
        exact h v hv
  | case4 c s hc he =>
    have hc : isNameChar c = false := by simpa using hc
    have he : startsEscape (c :: s) = false := by simpa using he
    refine .inl fun v hv => ?_
    have hev := startsEscape_append hv (c :: s)
    rw [he, List.cons_append] at hev
    rw [List.cons_append, takeName_cons_other hc hev, takeName_cons_other hc he]
    rfl

end

theorem takeString_quote (q : CodePoint) (s : Text) : takeString q (q :: s) = ([], .closed, s) := by
  rw [takeString.eq_def]
  simp

theorem takeString_newline {q : CodePoint} (hq : q ≠ '\n') (s : Text) :
    takeString q ('\n' :: s) = ([], .broken, CodePoint.char '\n' :: s) := by
  rw [takeString.eq_def]
  simp [Ne.symm hq]

theorem takeString_escaped_newline {q : CodePoint} (hq : q ≠ '\\') (s : Text) :
    takeString q ('\\' :: '\n' :: s) = takeString q s := by
  rw [takeString.eq_def]
  simp [Ne.symm hq]

theorem takeString_escape {q : CodePoint} (hq : q ≠ '\\') {s : Text} (hs : s ≠ []) (hn : s.head? ≠ some (.char '\n')) :
    takeString q ('\\' :: s) = ((takeEscape s).1 :: (takeString q (takeEscape s).2).1,
      (takeString q (takeEscape s).2).2) := by
  rw [takeString.eq_def]
  simp only [Ne.symm hq, if_false, if_true]
  split
  · exact absurd rfl hs
  · exact absurd rfl hn
  · rfl

theorem takeString_plain {q c : CodePoint} (hq : c ≠ q) (he : c ≠ '\\') (hn : c ≠ '\n') (s : Text) :
    takeString q (c :: s) = (c :: (takeString q s).1, (takeString q s).2) := by
  rw [takeString.eq_def]
  simp [hq, he, hn]

section

variable {v : Text}

theorem head?_append_of_stops (hv : Stops v) {c : CodePoint} (hc : ¬ IsHard c) (s : Text) :
    (s ++ v).head? = some c ↔ s.head? = some c := by
  cases s with
  | nil =>
    simp only [List.nil_append, List.head?_nil, reduceCtorEq, iff_false]
    exact fun h => hc (hv c h)
  | cons d s => simp

/-- A string ends inside the text or takes at least one character of what stands behind. -/
theorem takeString_steady_or {q : CodePoint} (hq : ¬ IsHard q) (hqe : q ≠ '\\') (s : Text) :
    (∀ v, Stops v → takeString q (s ++ v) =
      ((takeString q s).1, (takeString q s).2.1, (takeString q s).2.2 ++ v)) ∨
    ∀ v, Stops v → (takeString q (s ++ v)).2.2.length ≤ v.tail.length := by
  have newline : ¬ IsHard '\n' := by decide
  fun_induction takeString q s with
  | case1 =>
    refine .inr fun v hv => ?_
    cases v with
    | nil => simp [takeString]
    | cons c v =>
      have hcq : c ≠ q := by
        rintro rfl
        exact hq (hv c rfl)
      rw [List.nil_append, takeString_plain hcq ((hv c rfl).ne (by decide)) ((hv c rfl).ne (by decide))]
      exact takeString_length q v
  | case2 s => exact .inl fun v _ => by rw [List.cons_append, takeString_quote]
  | case3 =>
    refine .inr fun v hv => ?_
    cases v with
    | nil =>
      rw [takeString.eq_def]
      simp [Ne.symm hqe]
    | cons c v =>
      have hn : c ≠ '\n' := (hv c rfl).ne (by decide)
      rw [List.singleton_append, takeString_escape hqe (by simp) (by simpa using hn), ← takeEscape_of_stops hv]
      exact takeString_length q _
  | case4 r hc ih =>
    refine ih.imp (fun h v hv => ?_) fun h v hv => ?_
    · rw [List.cons_append, List.cons_append, takeString_escaped_newline hqe, h v hv]
    · rw [List.cons_append, List.cons_append, takeString_escaped_newline hqe]
      exact h v hv
  | case5 s hne hnl _ _ _ _ x _ ih =>
    have hs : s ≠ [] := hne
    have hs' : s.head? ≠ some (.char '\n') := fun hh => by
      obtain ⟨r, hr⟩ := List.head?_eq_some_iff.1 hh
      exact hnl r hr
    have step (v : Text) (hv : Stops v) : takeString q (.char '\\' :: s ++ v) =
        ((takeEscape s).1 :: (takeString q ((takeEscape s).2 ++ v)).1,
          (takeString q ((takeEscape s).2 ++ v)).2) := by
      have hvn := mt (head?_append_of_stops hv newline s).1 hs'
      rw [List.cons_append, takeString_escape hqe (by simp [hs]) hvn, takeEscape_append hv hs]
    refine ih.imp (fun h v hv => ?_) fun h v hv => ?_
    · rw [step v hv, h v hv, x]
    · rw [step v hv]
      exact h v hv
  | case6 s hc he =>
    have hqn : q ≠ '\n' := fun h => hc h.symm
    exact .inl fun v _ => by rw [List.cons_append, takeString_newline hqn]
  | case7 c s hc he hnl _ _ _ x ih =>
    refine ih.imp (fun h v hv => ?_) fun h v hv => ?_
    · rw [List.cons_append, takeString_plain hc he hnl, h v hv, x]
    · rw [List.cons_append, takeString_plain hc he hnl]
      exact h v hv

theorem skipBadUrl_escaped (s : Text) : skipBadUrl ('\\' :: ')' :: s) = skipBadUrl s := by
  rw [skipBadUrl]

theorem skipBadUrl_close (s : Text) : skipBadUrl (')' :: s) = s := by
  rw [skipBadUrl]
  · simp
  · intro r h
    exact absurd h (by decide)

theorem skipBadUrl_skip {c : CodePoint} (hc : c ≠ ')') {s : Text}
    (h : c = '\\' → s.head? ≠ some (.char ')')) : skipBadUrl (c :: s) = skipBadUrl s := by
  rw [skipBadUrl]
  · simp [hc]
  · rintro r rfl rfl
    exact h rfl rfl

theorem skipBadUrl_of_stops (hv : Stops v) : (skipBadUrl v).length ≤ v.tail.length := by
  cases v with
  | nil => simp [skipBadUrl]
  | cons c v =>
    rw [skipBadUrl_skip ((hv c rfl).ne (by decide)) fun h => absurd h ((hv c rfl).ne (by decide))]
    exact skipBadUrl_length v

theorem skipBadUrl_steady_or (s : Text) :
    (∀ v, Stops v → skipBadUrl (s ++ v) = skipBadUrl s ++ v) ∨
    ∀ v, Stops v → (skipBadUrl (s ++ v)).length ≤ v.tail.length := by
  have close : ¬ IsHard ')' := by decide
  fun_induction skipBadUrl s with
  | case1 => exact .inr fun v hv => skipBadUrl_of_stops hv
  | case2 s ih =>
    refine ih.imp (fun h v hv => ?_) fun h v hv => ?_
    · rw [List.cons_append, List.cons_append, skipBadUrl_escaped, h v hv]
    · rw [List.cons_append, List.cons_append, skipBadUrl_escaped]
      exact h v hv
  | case3 s h => exact .inl fun v _ => by rw [List.cons_append, skipBadUrl_close]
  | case4 c s hc h ih =>
    have hs (he : c = '\\') : s.head? ≠ some (.char ')') := fun hh => by
      obtain ⟨r, hr⟩ := List.head?_eq_some_iff.1 hh
      exact hc r he hr
    have step (v : Text) (hv : Stops v) : skipBadUrl (c :: s ++ v) = skipBadUrl (s ++ v) :=
      skipBadUrl_skip h fun he => mt (head?_append_of_stops hv close s).1 (hs he)
    refine ih.imp (fun h v hv => ?_) fun h v hv => ?_
    · rw [step v hv, h v hv]
    · rw [step v hv]
      exact h v hv

theorem takeUrl_close (s : Text) : takeUrl (')' :: s) = ([], .closed, s) := by
  rw [takeUrl]
  simp

/-- How a URL ends after spacing, before `r`. -/
def urlEnd : Text → Text × UrlEnd × Text
  | [] => ([], .atEnd, [])
  | ')' :: r => ([], .closed, r)
  | r => ([], .bad, skipBadUrl r)

theorem takeUrl_space {c : CodePoint} (hc : isSpace c = true) (s : Text) :
    takeUrl (c :: s) = urlEnd (s.dropWhile isSpace) := by
  have hne : c ≠ ')' := by
    rintro rfl
    exact absurd hc (by decide)
  rw [takeUrl]
  simp only [hne, hc, if_false, if_true]
  generalize s.dropWhile isSpace = r
  rfl

theorem takeUrl_escape {c : CodePoint} {s : Text} (he : startsEscape (c :: s) = true) :
    takeUrl (c :: s) = ((takeEscape s).1 :: (takeUrl (takeEscape s).2).1, (takeUrl (takeEscape s).2).2) := by
  obtain rfl : c = '\\' := by
    by_contra hne
    rw [startsEscape_of_ne hne] at he
    cases he
  rw [takeUrl]
  have hsp : isSpace '\\' = false := by decide
  have hne : CodePoint.char '\\' ≠ ')' := by decide
  simp [hne, hsp, he]

/-- Characters that no URL without quotes can hold. -/
def IsUrlBreak (c : CodePoint) : Prop := c = '"' ∨ c = '\'' ∨ c = '(' ∨ isNonPrintable c

theorem takeUrl_break {c : CodePoint} {s : Text} (h₁ : c ≠ ')') (h₂ : isSpace c = false)
    (h₃ : startsEscape (c :: s) = false) (hc : IsUrlBreak c) : takeUrl (c :: s) = ([], .bad, skipBadUrl s) := by
  rw [takeUrl]
  simp only [h₁, h₂, h₃, if_false, Bool.false_eq_true]
  exact if_pos hc

theorem takeUrl_plain {c : CodePoint} {s : Text} (h₁ : c ≠ ')') (h₂ : isSpace c = false)
    (h₃ : startsEscape (c :: s) = false) (hc : ¬ IsUrlBreak c) :
    takeUrl (c :: s) = (c :: (takeUrl s).1, (takeUrl s).2) := by
  rw [takeUrl]
  simp only [h₁, h₂, h₃, if_false, Bool.false_eq_true]
  exact if_neg hc

theorem takeUrl_of_stops (hv : Stops v) : (takeUrl v).2.2.length ≤ v.tail.length := by
  cases v with
  | nil => simp [takeUrl]
  | cons c v =>
    have hc := hv c rfl
    have hb : ¬ IsUrlBreak c := by
      rcases hc with rfl | rfl | rfl <;> unfold IsUrlBreak <;> decide
    rw [takeUrl_plain (hc.ne (by decide)) (avoids_isSpace c hc) (startsEscape_of_ne (hc.ne (by decide)) v) hb]
    exact takeUrl_length v

theorem urlEnd_steady_or (s : Text) :
    (∀ v, Stops v → urlEnd (s ++ v) = ((urlEnd s).1, (urlEnd s).2.1, (urlEnd s).2.2 ++ v)) ∨
    ∀ v, Stops v → (urlEnd (s ++ v)).2.2.length ≤ v.tail.length := by
  have bad {r : Text} (h₁ : r ≠ []) (h₂ : r.head? ≠ some (.char ')')) :
      urlEnd r = ([], .bad, skipBadUrl r) := by
    unfold urlEnd
    split
    · exact absurd rfl h₁
    · exact absurd rfl h₂
    · rfl
  cases s with
  | nil =>
    refine .inr fun v hv => ?_
    cases v with
    | nil => simp [urlEnd]
    | cons c v =>
      have hc : c ≠ ')' := (hv c rfl).ne (by decide)
      rw [List.nil_append, bad (by simp) (by simpa using hc)]
      exact skipBadUrl_of_stops hv
  | cons c s =>
    by_cases hc : c = ')'
    · subst hc
      exact .inl fun v _ => rfl
    · have step (v : Text) : urlEnd (c :: s ++ v) = ([], .bad, skipBadUrl (c :: s ++ v)) :=
        bad (by simp) (by simpa using hc)
      have step' := by simpa only [List.append_nil] using step []
      refine (skipBadUrl_steady_or (c :: s)).imp (fun h v hv => ?_) fun h v hv => ?_
      · rw [step, step', h v hv]
      · rw [step]
        exact h v hv

theorem takeUrl_steady_or (s : Text) :
    (∀ v, Stops v → takeUrl (s ++ v) = ((takeUrl s).1, (takeUrl s).2.1, (takeUrl s).2.2 ++ v)) ∨
    ∀ v, Stops v → (takeUrl (s ++ v)).2.2.length ≤ v.tail.length := by
  induction h : s.length using Nat.strongRecOn generalizing s with
  | ind n ih =>
  subst h
  cases s with
  | nil => exact .inr fun v hv => takeUrl_of_stops hv
  | cons c s =>
    have escape (v : Text) (hv : Stops v) := startsEscape_append hv (c :: s)
    by_cases h₁ : c = ')'
    · subst h₁
      exact .inl fun v _ => by rw [List.cons_append, takeUrl_close, takeUrl_close]
    by_cases h₂ : isSpace c = true
    · have step (v : Text) (hv : Stops v) : takeUrl (c :: s ++ v) = urlEnd (s.dropWhile isSpace ++ v) := by
        rw [List.cons_append, takeUrl_space h₂, dropWhile_append_of_stops avoids_isSpace hv]
      refine (urlEnd_steady_or (s.dropWhile isSpace)).imp (fun h v hv => ?_) fun h v hv => ?_
      · rw [step v hv, takeUrl_space h₂, h v hv]
      · rw [step v hv]
        exact h v hv
    have h₂ : isSpace c = false := by simpa using h₂
    by_cases h₃ : startsEscape (c :: s) = true
    · have h₃' (v : Text) (hv : Stops v) : startsEscape (c :: (s ++ v)) = true := by
        rw [← List.cons_append, escape v hv, h₃]
      by_cases hs : s = []
      · subst hs
        refine .inr fun v hv => ?_
        rw [List.cons_append, takeUrl_escape (h₃' v hv), List.nil_append, ← takeEscape_of_stops hv]
        exact takeUrl_length _
      · have hl : (takeEscape s).2.length < (c :: s).length := Nat.lt_succ_of_le (takeEscape_length s)
        refine (ih _ hl (takeEscape s).2 rfl).imp (fun h v hv => ?_) fun h v hv => ?_
        · rw [List.cons_append, takeUrl_escape (h₃' v hv), takeUrl_escape h₃, takeEscape_append hv hs, h v hv]
        · rw [List.cons_append, takeUrl_escape (h₃' v hv), takeEscape_append hv hs]
          exact h v hv
    have h₃ : startsEscape (c :: s) = false := by simpa using h₃
    have h₃' (v : Text) (hv : Stops v) : startsEscape (c :: (s ++ v)) = false := by
      rw [← List.cons_append, escape v hv, h₃]
    by_cases h₄ : IsUrlBreak c
    · refine (skipBadUrl_steady_or s).imp (fun h v hv => ?_) fun h v hv => ?_
      · rw [List.cons_append, takeUrl_break h₁ h₂ (h₃' v hv) h₄, takeUrl_break h₁ h₂ h₃ h₄, h v hv]
      · rw [List.cons_append, takeUrl_break h₁ h₂ (h₃' v hv) h₄]
        exact h v hv
    · refine (ih _ (Nat.lt_succ_self _) s rfl).imp (fun h v hv => ?_) fun h v hv => ?_
      · rw [List.cons_append, takeUrl_plain h₁ h₂ (h₃' v hv) h₄, takeUrl_plain h₁ h₂ h₃ h₄, h v hv]
      · rw [List.cons_append, takeUrl_plain h₁ h₂ (h₃' v hv) h₄]
        exact h v hv

theorem takeDigits_append_of_stops (hv : Stops v) (s : Text) :
    takeDigits (s ++ v) = ((takeDigits s).1, (takeDigits s).2 ++ v) := by
  simp only [takeDigits, takeWhile_append_of_stops avoids_isDigit hv, dropWhile_append_of_stops avoids_isDigit hv]

theorem takeSign_append_of_stops (hv : Stops v) (s : Text) :
    takeSign (s ++ v) = ((takeSign s).1, (takeSign s).2 ++ v) := by
  cases s with
  | nil =>
    cases v with
    | nil => rfl
    | cons c v =>
      have h₁ : c ≠ '+' := (hv c rfl).ne (by decide)
      have h₂ : c ≠ '-' := (hv c rfl).ne (by decide)
      simp [takeSign, h₁, h₂]
  | cons c s =>
    by_cases h₁ : c = '+'
    · subst h₁
      rfl
    · by_cases h₂ : c = '-'
      · subst h₂
        rfl
      · simp [takeSign, h₁, h₂]

theorem takeExponent_append_of_stops (hv : Stops v) (s : Text) :
    takeExponent (s ++ v) = ((takeExponent s).1, (takeExponent s).2 ++ v) := by
  cases s with
  | nil =>
    cases v with
    | nil => rfl
    | cons c v =>
      have h₁ : c ≠ 'e' := (hv c rfl).ne (by decide)
      have h₂ : c ≠ 'E' := (hv c rfl).ne (by decide)
      simp [takeExponent, h₁, h₂]
  | cons c s =>
    simp only [List.cons_append, takeExponent, takeSign_append_of_stops hv, takeDigits_append_of_stops hv]
    split <;> rfl

theorem takeDecimal?_append_of_stops (hv : Stops v) (s : Text) :
    takeDecimal? (s ++ v) = (takeDecimal? s).map fun x => (x.1, x.2 ++ v) := by
  have hp := after?_append_of_stops (q := ['.']) (by simp [IsHard]) hv (takeDigits s).2
  simp only [takeDecimal?, takeDigits_append_of_stops hv, hp]
  cases Text.after? ['.'] (takeDigits s).2 with
  | none =>
    simp only [Option.map_none]
    split <;> rfl
  | some r =>
    simp only [Option.map_some, takeDigits_append_of_stops hv]
    split
    · rfl
    · split <;> rfl

theorem takeNumber?_append_of_stops (hv : Stops v) (s : Text) :
    takeNumber? (s ++ v) = (takeNumber? s).map fun x => (x.1, x.2 ++ v) := by
  simp only [takeNumber?, takeSign_append_of_stops hv, takeDecimal?_append_of_stops hv, Option.map_map]
  congr 1
  funext d
  simp only [Function.comp_apply, takeExponent_append_of_stops hv]

theorem takeRange_append_of_stops (hv : Stops v) (s : Text) :
    takeRange (s ++ v) = ((takeRange s).1, (takeRange s).2.1, (takeRange s).2.2 ++ v) := by
  have hq : Avoids fun c => decide (c = .char '?') := avoids_of (by decide) (by decide) (by decide)
  simp only [takeRange, takeUpTo_append_of_stops avoids_isHexDigit hv, takeUpTo_append_of_stops hq hv]
  split
  · rfl
  · cases (takeUpTo Text.isHexDigit 6 s).2 with
    | nil =>
      cases v with
      | nil => rfl
      | cons c v =>
        have hc : c ≠ '-' := (hv c rfl).ne (by decide)
        simp [hc]
    | cons c r =>
      by_cases hc : c = '-'
      · subst hc
        simp only [List.cons_append, takeUpTo_append_of_stops avoids_isHexDigit hv]
        split <;> rfl
      · simp [hc]

theorem cutAt?_append_of_stops {q : Text} (hq : ∀ c ∈ q, ¬ IsHard c) (hv : Stops v) {s a r : Text}
    (h : Text.cutAt? q s = some (a, r)) : Text.cutAt? q (s ++ v) = some (a, r ++ v) := by
  induction s generalizing a with
  | nil =>
    by_cases hn : q = []
    · subst hn
      obtain ⟨rfl, rfl⟩ := by simpa [Text.cutAt?] using h
      cases v <;> simp [Text.cutAt?, Text.after?]
    · simp [Text.cutAt?, hn] at h
  | cons c s ih =>
    have ha := after?_append_of_stops hq hv (c :: s)
    rw [Text.cutAt?] at h
    rw [List.cons_append, Text.cutAt?, ← List.cons_append, ha]
    cases hn : Text.after? q (c :: s) with
    | some r' =>
      obtain ⟨rfl, rfl⟩ := by simpa [hn] using h
      rfl
    | none =>
      rw [hn] at h
      obtain ⟨x, hx, he⟩ := Option.map_eq_some_iff.1 h
      obtain ⟨rfl, rfl⟩ := Prod.mk.inj he
      simp [ih (a := x.1) hx]

theorem cutAt?_commentEnd_length (hv : Stops v) {s a r : Text} (hs : Text.cutAt? "*/" s = none)
    (h : Text.cutAt? "*/" (s ++ v) = some (a, r)) : r.length ≤ v.tail.length := by
  have hq : ∀ c ∈ Text.ofString "*/", ¬ IsHard c := by simp [Text.ofString, IsHard]
  induction s generalizing a with
  | nil =>
    cases v with
    | nil => simp [Text.cutAt?, Text.ofString] at h
    | cons c v =>
      have hc : Text.after? "*/" (c :: v) = none := by
        have := after?_append_of_stops hq hv []
        simpa [Text.after?, Text.ofString] using this
      rw [List.nil_append, Text.cutAt?, hc] at h
      obtain ⟨x, hx, he⟩ := Option.map_eq_some_iff.1 h
      have hl := congrArg List.length (Text.eq_append_of_cutAt? (a := x.1) (r := x.2) hx)
      obtain ⟨-, rfl⟩ := Prod.mk.inj he
      simp only [List.length_append] at hl
      simp only [List.tail_cons]
      omega
  | cons c s ih =>
    have ha := after?_append_of_stops hq hv (c :: s)
    rw [List.cons_append, Text.cutAt?] at h
    rw [Text.cutAt?] at hs
    cases hn : Text.after? "*/" (c :: s) with
    | some r' => simp [hn] at hs
    | none =>
      rw [hn] at ha hs
      rw [← List.cons_append, ha] at h
      obtain ⟨x, hx, he⟩ := Option.map_eq_some_iff.1 h
      obtain ⟨-, rfl⟩ := Prod.mk.inj he
      exact ih (by simpa using hs) (a := x.1) hx

end

theorem takeUpTo_suffix (p : CodePoint → Bool) (n : Nat) (s : Text) : (takeUpTo p n s).2 <:+ s :=
  ⟨_, takeUpTo_append p n s⟩

theorem takeEscape_suffix (s : Text) : (takeEscape s).2 <:+ s := by
  have h := takeUpTo_suffix Text.isHexDigit 6 s
  unfold takeEscape
  split
  · cases s with
    | nil => exact List.suffix_refl _
    | cons c s => exact List.suffix_cons c s
  · rename_i hs
    rw [hs] at h
    exact (takeUpTo_suffix ..).trans h

theorem takeName_suffix (s : Text) : (takeName s).2 <:+ s := by
  fun_induction takeName s with
  | case1 => exact List.suffix_refl _
  | case2 c s h v r e ih =>
    rw [e] at ih
    exact ih.trans (List.suffix_cons c s)
  | case3 c s h h' hl v r e ih =>
    rw [e] at ih
    exact (ih.trans (takeEscape_suffix s)).trans (List.suffix_cons c s)
  | case4 => exact List.suffix_refl _

theorem takeString_suffix (q : CodePoint) (s : Text) : (takeString q s).2.2 <:+ s := by
  fun_induction takeString q s with
  | case1 => exact List.suffix_refl _
  | case2 s => exact List.suffix_cons _ s
  | case3 => exact List.nil_suffix
  | case4 r hc ih => exact (ih.trans (List.suffix_cons _ r)).trans (List.suffix_cons _ _)
  | case5 s _ _ _ _ _ _ e _ ih =>
    rw [e] at ih
    exact (ih.trans (takeEscape_suffix s)).trans (List.suffix_cons _ s)
  | case6 => exact List.suffix_refl _
  | case7 c s _ _ _ _ _ _ e ih =>
    rw [e] at ih
    exact ih.trans (List.suffix_cons c s)

theorem skipBadUrl_suffix (s : Text) : skipBadUrl s <:+ s := by
  fun_induction skipBadUrl s with
  | case1 => exact List.suffix_refl _
  | case2 s ih => exact (ih.trans (List.suffix_cons _ s)).trans (List.suffix_cons _ _)
  | case3 s => exact List.suffix_cons _ s
  | case4 c s _ _ ih => exact ih.trans (List.suffix_cons c s)

theorem takeUrl_suffix (s : Text) : (takeUrl s).2.2 <:+ s := by
  fun_induction takeUrl s with
  | case1 => exact List.suffix_refl _
  | case2 s => exact List.suffix_cons _ s
  | case3 c s => exact List.nil_suffix
  | case4 c s _ _ r h =>
    have hd := List.dropWhile_suffix isSpace (l := s)
    rw [h] at hd
    exact ((List.suffix_cons _ r).trans hd).trans (List.suffix_cons c s)
  | case5 c s =>
    exact ((skipBadUrl_suffix _).trans (List.dropWhile_suffix isSpace)).trans (List.suffix_cons c s)
  | case6 c s _ _ _ _ _ _ _ e ih =>
    rw [e] at ih
    exact (ih.trans (takeEscape_suffix s)).trans (List.suffix_cons c s)
  | case7 c s => exact (skipBadUrl_suffix s).trans (List.suffix_cons c s)
  | case8 c s _ _ _ _ _ _ _ e ih =>
    rw [e] at ih
    exact ih.trans (List.suffix_cons c s)

theorem takeRange_suffix (s : Text) : (takeRange s).2.2 <:+ s := by
  have h1 := takeUpTo_suffix Text.isHexDigit 6 s
  have h2 := takeUpTo_suffix (· = .char '?') (6 - (takeUpTo Text.isHexDigit 6 s).1.length)
    (takeUpTo Text.isHexDigit 6 s).2
  simp only [takeRange]
  split
  · exact h2.trans h1
  · split
    · rename_i r hr
      rw [hr] at h1
      split
      · exact ((takeUpTo_suffix ..).trans (List.suffix_cons _ r)).trans h1
      · simpa [hr] using h1
    · exact h1

theorem after?_suffix {q s r : Text} (h : Text.after? q s = some r) : r <:+ s :=
  ⟨q, (Text.eq_append_of_after? h).symm⟩

end StylePrune.Css
