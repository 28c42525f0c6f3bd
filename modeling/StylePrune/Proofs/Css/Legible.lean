import Mathlib
import StylePrune.Proofs.Css.Neighbours
import StylePrune.Proofs.Css.Proper

/-!
Tokens written one after the other. Each reads back from its text as long as what is written behind it does not carry it on.
-/

set_option autoImplicit false

namespace StylePrune.Css

/-- A token as it is written, a broken string without the newline that ends it. -/
def Lexeme.spell : Lexeme → Text
  | .leaf (.error .badString) => "\"[bad string]"
  | .leaf t => t.write
  | .opening b => [b.opener]
  | .closing b => [b.closer]
  | .function n => writeIdent n ++ [.char '(']

def spell (ls : List Lexeme) : Text := ls.flatMap Lexeme.spell

/-- A token, written before a text, that no other way of reading the two takes for something else: it is no stray backslash,
and no cut-off string or URL, it does not become the start of a comment mark, a matcher, a range or an arrow of dashes, and a unit
does not read as an exponent. -/
def Lexeme.isClear (m : Text) : Lexeme → Bool
  | .leaf (.literal s) => s ≠ [.char '\\'] && (s ≠ [.char '<'] || (Text.after? "!--" m).isNone) &&
    (s ≠ [.char '~'] || m.head? ≠ some (.char '='))
  | .leaf (.ident n) => (match n with | [c] => (rangeStart? c m).isNone | _ => true) &&
    (n ≠ [.char '-', .char '-'] || m.head? ≠ some (.char '>'))
  | .leaf (.unicodeRange ..) => !carriesRange m
  | .leaf (.dimension _ u) => !isExponentLike u
  | .leaf (.url v closed) => closed && v.all fun c => !isNonPrintable c
  | .leaf (.string _ closed) => closed
  | .leaf (.error e) => e ≠ .stringAtEnd && e ≠ .urlAtEnd
  | _ => true

section Lead

variable {s t m : Text} {f : Feature}

/-- What a text shows is decided within it, unless it is a lone dash or point. -/
theorem Feature.shownBy_of_append (hs : ∀ c ∈ s, c ≠ .char '\\') (hn : s ≠ []) (hd : s ≠ [.char '-']) (hp : s ≠ [.char '.'])
    (h : f.shownBy (s ++ t) = true) : f.shownBy s = true := by
  cases s with
  | nil => exact absurd rfl hn
  | cons c s =>
    obtain ⟨hc, hs'⟩ := List.forall_mem_cons.1 hs
    cases f with
    | name =>
      have h : (isNameChar c || startsEscape (c :: (s ++ t))) = true := h
      rw [startsEscape_of_ne hc, Bool.or_false] at h
      simp [shownBy, startsHash, h]
    | ident =>
      by_cases hdash : c = '-'
      · subst hdash
        cases s with
        | nil => exact absurd rfl hd
        | cons d s =>
          have hdne := hs' d List.mem_cons_self
          simp only [shownBy, List.cons_append, startsIdent, startsEscape_of_ne hdne] at h ⊢
          exact h
      · have h : startsIdent (c :: (s ++ t)) = true := h
        rw [startsIdent_of_ne hdash, startsEscape_of_ne hc] at h
        rw [shownBy, startsIdent_of_ne hdash, startsEscape_of_ne hc, h]
    | dashed =>
      simp only [shownBy, List.cons_append, startsIdent, startsEscape_of_ne hc] at h ⊢
      exact h
    | point =>
      by_cases hpoint : c = '.'
      · subst hpoint
        cases s with
        | nil => exact absurd rfl hp
        | cons d s => exact h
      · have h : startsPoint (c :: (s ++ t)) = true := h
        rw [startsPoint_of_ne hpoint] at h
        cases h
    | _ => exact h

/-- What starts like an identifier shows nothing else. -/
theorem shownBy_u_of_startsIdent (hs : startsIdent s = true) (h : f.shownBy s = true) : f.shownBy "u" = true := by
  have out {d : CodePoint} (hn : isNameStart d = false) (hd : d ≠ '-') (he : d ≠ '\\') : s.head? ≠ some d := by
    intro hh
    obtain ⟨t, rfl⟩ := List.head?_eq_some_iff.1 hh
    rw [startsIdent_of_ne hd, hn, startsEscape_of_ne he] at hs
    cases hs
  cases f with
  | name | ident | dashed => rfl
  | digit => rw [Feature.shownBy, (startsDigit_of_startsIdent hs).1] at h; cases h
  | point => rw [Feature.shownBy, (startsDigit_of_startsIdent hs).2] at h; cases h
  | space =>
    obtain ⟨c, hc, hspace⟩ := (Option.any_eq_true ..).1 h
    simp only [isSpace, Bool.or_eq_true, beq_iff_eq] at hspace
    rcases hspace with (rfl | rfl) | rfl <;> exact absurd hc (out (by decide) (by decide) (by decide))
  | _ => exact absurd (by simpa [Feature.shownBy] using h) (out (by decide) (by decide) (by decide))

theorem IsNumber.shownBy_of_append {r : Text} (hr : IsNumber r) (h : f.shownBy (r ++ t) = true) : f.shownBy r = true := by
  obtain ⟨sign, b, rfl, hs, hb⟩ := hr.exists_sign
  have hne : b ≠ [] := by
    rintro rfl
    rcases hb with hb | hb <;> cases hb
  have hpoint : b ≠ [.char '.'] := by
    rintro rfl
    rcases hb with hb | hb <;> cases hb
  have hdash : b ≠ [.char '-'] := by
    rintro rfl
    rcases hb with hb | hb <;> cases hb
  refine Feature.shownBy_of_append hr.not_backslash (by simp [hne]) ?_ ?_ h
  · rcases hs with rfl | rfl | rfl <;> simp [hne, hdash]
  · rcases hs with rfl | rfl | rfl <;> simp [hne, hpoint]

/-- Marks show what they are as long as nothing stands behind them that carries them on. -/
theorem shownBy_of_mark {c : CodePoint} (hc : c ≠ '\\') (hb : ∀ f ∈ markBars c, f.shownBy m = false)
    (h : f.shownBy (c :: m) = true) : f.shownBy [c] = true := by
  by_cases hd : c = '-'
  · subst hd
    cases f with
    | name | dashed => rfl
    | ident =>
      have hi : startsIdent ('-' :: m) = false := hb .dashed (by decide)
      rw [Feature.shownBy, hi] at h
      cases h
    | _ => cases h
  · by_cases hp : c = '.'
    · subst hp
      cases f with
      | point =>
        have hi : startsDigit m = false := hb .digit (by decide)
        rw [Feature.shownBy, startsPoint, hi] at h
        cases h
      | _ => cases h
    · exact Feature.shownBy_of_append (s := [c]) (by simpa using hc) (List.cons_ne_nil _ _) (by simpa using hd)
        (by simpa using hp) h

/-- What the text of a token shows, with what is written behind it, the token shows itself. -/
theorem Lexeme.shownBy_lead {y : Lexeme} (hy : y.IsProper) (hc : y.isClear m = true) (hb : ∀ f ∈ y.bars, f.shownBy m = false)
    (h : f.shownBy (y.spell ++ m) = true) : f.shownBy y.lead = true := by
  have idle {c : CodePoint} {u : Text} (hh : ∀ f : Feature, f.shownBy (c :: u) = false) (h : f.shownBy (c :: u) = true) :
      f.shownBy [] = true := by
    rw [hh] at h
    cases h
  cases y with
  | opening b =>
    refine Feature.shownBy_of_append (s := [b.opener]) ?_ (List.cons_ne_nil _ _) ?_ ?_ h <;> cases b <;> decide
  | closing b => cases b <;> exact idle (fun f => by cases f <;> rfl) h
  | function n =>
    refine shownBy_u_of_startsIdent ?_ h
    rw [Lexeme.spell, List.append_assoc]
    exact startsIdent_writeIdent hy.1 _
  | leaf t =>
    cases t with
    | whitespace w =>
      obtain ⟨hw, ha⟩ := hy
      obtain ⟨c, w, rfl⟩ := List.exists_cons_of_ne_nil hw
      have hc := ha c List.mem_cons_self
      simp only [isSpace, Bool.or_eq_true, beq_iff_eq] at hc
      cases f with
      | space => rfl
      | _ => rcases hc with (rfl | rfl) | rfl <;> cases h
    | comment v => exact idle (fun f => by cases f <;> rfl) h
    | ident n => exact shownBy_u_of_startsIdent (startsIdent_writeIdent hy.1 m) h
    | atKeyword n => exact idle (fun f => by cases f <;> rfl) h
    | hash n isIdent => exact idle (fun f => by cases f <;> rfl) h
    | string v closed => exact idle (fun f => by cases f <;> rfl) h
    | url v closed => exact shownBy_u_of_startsIdent rfl h
    | number r => exact IsNumber.shownBy_of_append hy h
    | percentage r =>
      have h : f.shownBy (r ++ [CodePoint.char '%'] ++ m) = true := h
      rw [List.append_assoc] at h
      exact IsNumber.shownBy_of_append hy h
    | dimension r u =>
      have h : f.shownBy (r ++ writeUnit u ++ m) = true := h
      rw [List.append_assoc] at h
      exact IsNumber.shownBy_of_append hy.1 h
    | unicodeRange low high => exact shownBy_u_of_startsIdent rfl h
    | literal s =>
      simp only [isClear, Bool.and_eq_true, decide_eq_true_eq] at hc
      have hs := hc.1.1
      rw [Lexeme.lead, if_neg hs]
      obtain ⟨-, ⟨c, rfl, -⟩ | ⟨c, rfl, hm⟩ | hword⟩ := hy
      · exact shownBy_of_mark (by simpa using hs) hb h
      · refine Feature.shownBy_of_append (s := [c, .char '=']) ?_ (List.cons_ne_nil _ _) (by simp) (by simp) h
        simp only [isMatcher, Bool.or_eq_true, beq_iff_eq] at hm
        rcases hm with (((rfl | rfl) | rfl) | rfl) | rfl <;> decide
      · simp only [List.mem_cons, List.not_mem_nil, or_false] at hword
        rcases hword with rfl | rfl | rfl <;>
          exact Feature.shownBy_of_append (by decide) (by decide) (by decide) (by decide) h
    | error e =>
      cases e with
      | badString => exact idle (fun f => by cases f <;> rfl) h
      | badUrl => exact shownBy_u_of_startsIdent rfl h
      | stringAtEnd => cases hc
      | urlAtEnd => cases hc
      | unmatched b => cases b <;> exact idle (fun f => by cases f <;> rfl) h

end Lead

/-- What is written of a token before a text is read as that token and nothing more. -/
def IsReadBack (x : Lexeme) (m : Text) : Prop := ∃ c s, x.spell ++ m = c :: s ∧ readToken c s = ([x], m)

section Marks

variable {c : CodePoint} {s m : Text}

theorem isReadBack_bracket (b : Bracket) (m : Text) : IsReadBack (.opening b) m ∧ IsReadBack (.closing b) m :=
  ⟨⟨_, m, rfl, readToken_opener b m⟩, ⟨_, m, rfl, readToken_closer b m⟩⟩

theorem isReadBack_whitespace {w : Text} (hw : w ≠ []) (ha : ∀ c ∈ w, isSpace c = true) (hm : m.head?.any isSpace = false) :
    IsReadBack (.leaf (.whitespace w)) m := by
  obtain ⟨c, w, rfl⟩ := List.exists_cons_of_ne_nil hw
  obtain ⟨hc, ha⟩ := List.forall_mem_cons.1 ha
  refine ⟨c, w ++ m, rfl, ?_⟩
  have hnone : m.takeWhile isSpace = [] ∧ m.dropWhile isSpace = m := by
    cases m with
    | nil => exact ⟨rfl, rfl⟩
    | cons d m =>
      have hd : isSpace d = false := hm
      simp [hd]
  rw [readToken, if_pos hc, List.takeWhile_append_of_pos ha, List.dropWhile_append_of_pos ha, hnone.1, hnone.2, List.append_nil]

theorem isReadBack_atKeyword {n : Text} (hn : n ≠ []) (hm : startsHash m = false) : IsReadBack (.leaf (.atKeyword n)) m := by
  refine ⟨'@', writeIdent n ++ m, rfl, ?_⟩
  rw [readToken_plain (by unfold IsPlainStart; decide)]
  simp [readMark, startsIdent_writeIdent hn m, takeName_writeIdent n hm]

theorem startsHash_of_takeName_ne_nil (h : (takeName s).1 ≠ []) : startsHash s = true := by
  cases s with
  | nil => simp [takeName] at h
  | cons c s =>
    rw [startsHash, Bool.or_eq_true]
    by_contra hne
    obtain ⟨hc, he⟩ := not_or.1 hne
    rw [takeName_cons_other (by simpa using hc) (by simpa using he)] at h
    exact h rfl

theorem startsIdent_writeName_of_isPlainHash {n : Text} (h : isPlainHash n = true) (hm : startsHash m = false) :
    startsIdent (writeName n ++ m) = false := by
  have char {c : CodePoint} (hc : isNameChar c = true) (n : Text) : writeName (c :: n) = c :: writeName n := by
    rw [writeName, List.flatMap_cons, writeNameChar, if_pos hc]
    rfl
  have digit {c : CodePoint} (hc : c.isDigit = true) : isNameChar c = true ∧ isNameStart c = false ∧ c ≠ '-' ∧ c ≠ '\\' := by
    refine ⟨by simp [isNameChar, hc], isNameStart_of_isDigit hc, ?_, ?_⟩ <;> rintro rfl <;> exact absurd hc (by decide)
  unfold isPlainHash at h
  split at h
  · rename_i d n
    obtain ⟨hc, hs, hdash, he⟩ := digit h
    rw [char (by decide), char hc]
    simp [startsIdent, hs, hdash, startsEscape_of_ne he]
  · rename_i c n hne
    rcases Bool.or_eq_true_iff.1 h with h | h
    · obtain ⟨hc, hs, hdash, he⟩ := digit h
      rw [char hc, List.cons_append, startsIdent_of_ne hdash, hs, startsEscape_of_ne he]
      rfl
    · obtain rfl : c = '-' := by simpa using h
      have hn : n = [] := by
        cases n with
        | nil => rfl
        | cons d n => exact (hne d n rfl rfl).elim
      subst hn
      rw [char (by decide)]
      obtain ⟨hname, he⟩ := Bool.or_eq_false_iff.1 hm
      have hd : isNameChar '-' = true := by decide
      cases m with
      | nil => rfl
      | cons d m =>
        have hname : isNameChar d = false := hname
        obtain ⟨⟨hs, -⟩, hdash⟩ : (isNameStart d = false ∧ d.isDigit = false) ∧ d ≠ '-' := by simpa [isNameChar] using hname
        simp [startsIdent, writeName, hs, hdash, he]
  · cases h

theorem isReadBack_hash {n : Text} {isIdent : Bool} (hn : n ≠ []) (hp : isIdent = false → isPlainHash n = true)
    (hm : startsHash m = false) : IsReadBack (.leaf (.hash n isIdent)) m := by
  refine ⟨'#', (if isIdent then writeIdent n else writeName n) ++ m, rfl, ?_⟩
  rw [readToken_plain (by unfold IsPlainStart; decide), readMark_hash]
  have hname : takeName ((if isIdent then writeIdent n else writeName n) ++ m) = (n, m) := by
    split
    · exact takeName_writeIdent n hm
    · exact takeName_writeName n hm
  have hident : startsIdent ((if isIdent then writeIdent n else writeName n) ++ m) = isIdent := by
    cases isIdent with
    | true => exact startsIdent_writeIdent hn m
    | false => exact startsIdent_writeName_of_isPlainHash (hp rfl) hm
  rw [if_pos (startsHash_of_takeName_ne_nil (by rw [hname]; exact hn)), hname, hident]

theorem isReadBack_string (v m : Text) : IsReadBack (.leaf (.string v true)) m := by
  refine ⟨'"', v.flatMap writeStringChar ++ (.char '"' :: m), by simp [Lexeme.spell, Leaf.write], ?_⟩
  rw [readToken_quote (.inl rfl)]
  simp [readString, takeString_writeString, takeString_quote]

theorem lexemes_string_atEnd (v : Text) :
    lexemes (.char '"' :: v.flatMap writeStringChar) = (CutOff.string v).lexemes := by
  have hend : takeString '"' [] = ([], .atEnd, []) := by rw [takeString]
  have hv : takeString '"' (v.flatMap writeStringChar) = (v, .atEnd, []) := by
    rw [← List.append_nil (v.flatMap writeStringChar), takeString_writeString, hend, List.append_nil]
  rw [lexemes_cons, readToken_quote (.inl rfl)]
  simp [readString, hv, CutOff.lexemes, CutOff.leaf, CutOff.error]

theorem isReadBack_badString (m : Text) : IsReadBack (.leaf (.error .badString)) ('\n' :: m) := by
  refine ⟨'"', "[bad string]" ++ .char '\n' :: m, rfl, ?_⟩
  have hplain : ("[bad string]" : Text) = ("[bad string]" : Text).flatMap writeStringChar := rfl
  have hv : takeString '"' ("[bad string]" ++ .char '\n' :: m) =
      (("[bad string]" : Text), StringEnd.broken, .char '\n' :: m) := by
    rw [hplain, takeString_writeString, takeString_newline (by decide), List.append_nil]
    exact congrArg (·, StringEnd.broken, CodePoint.char '\n' :: m) hplain.symm
  rw [readToken_quote (.inl rfl)]
  simp [readString, hv]

theorem isReadBack_word {u : Text} (hu : u ∈ [("<!--" : Text), "-->", "||"]) (m : Text) : IsReadBack (.leaf (.literal u)) m := by
  simp only [List.mem_cons, List.not_mem_nil, or_false] at hu
  rcases hu with rfl | rfl | rfl
  · refine ⟨'<', "!--" ++ m, rfl, ?_⟩
    rw [readToken_plain (by unfold IsPlainStart; decide)]
    rfl
  · exact ⟨'-', "->" ++ m, rfl, rfl⟩
  · refine ⟨'|', "|" ++ m, rfl, ?_⟩
    rw [readToken_plain (by unfold IsPlainStart; decide)]
    rfl

theorem isMatcher_cases (h : isMatcher c = true) : c = '~' ∨ c = '|' ∨ c = '^' ∨ c = '$' ∨ c = '*' := by
  simpa [isMatcher, or_assoc] using h

theorem isReadBack_matcher (h : isMatcher c = true) (m : Text) : IsReadBack (.leaf (.literal [c, '='])) m := by
  refine ⟨c, .char '=' :: m, rfl, ?_⟩
  rcases isMatcher_cases h with rfl | rfl | rfl | rfl | rfl <;>
    rw [readToken_plain (by unfold IsPlainStart; decide)] <;> rfl

theorem readToken_mark_of_bars (hc : IsMarkChar c) (he : c ≠ '\\') (hb : ∀ f ∈ markBars c, f.shownBy m = false) :
    readToken c m = readMark c m := by
  obtain ⟨hspace, hstart, hdigit⟩ := hc
  have skip (harrow : Text.after? "-->" (c :: m) = none) (hi : startsIdent (c :: m) = false) (hn : takeNumber? (c :: m) = none) :
      readToken c m = readMark c m :=
    readToken_of_not hspace (rangeStart?_eq_none hstart m) harrow hi hn
  by_cases hdash : c = '-'
  · subst hdash
    have hi : startsIdent ('-' :: m) = false := hb .dashed (by decide)
    refine skip ?_ hi (takeNumber?_sign_eq_none (g := ['-']) (.inr (.inr rfl)) (.inr (List.cons_ne_nil _ _))
      (hb .digit (by decide)) (hb .point (by decide)))
    cases ha : Text.after? "-->" (CodePoint.char '-' :: m) with
    | none => rfl
    | some t =>
      have hm := Text.eq_append_of_after? ha
      rw [hm] at hi
      cases hi
  have hi : startsIdent (c :: m) = false := by
    rw [startsIdent_of_ne hdash, hstart, startsEscape_of_ne he]
    rfl
  by_cases hplus : c = '+'
  · subst hplus
    exact skip rfl hi (takeNumber?_sign_eq_none (g := ['+']) (.inr (.inl rfl)) (.inr (List.cons_ne_nil _ _))
      (hb .digit (by decide)) (hb .point (by decide)))
  by_cases hpoint : c = '.'
  · subst hpoint
    exact skip rfl hi (takeNumber?_sign_eq_none (g := []) (.inl rfl) (.inl (by simp)) rfl (hb .digit (by decide)))
  exact readToken_plain ⟨hspace, hstart, hdigit, hdash, he, hplus, hpoint⟩ m

/-- A mark before a text that it does not run into is read as itself. -/
theorem isReadBack_mark (hc : IsMark c) (hclear : (Lexeme.leaf (.literal [c])).isClear m = true)
    (hb : ∀ f ∈ markBars c, f.shownBy m = false) : IsReadBack (.leaf (.literal [c])) m := by
  refine ⟨c, m, rfl, ?_⟩
  obtain ⟨hchar, hbracket, hquote⟩ := hc
  simp only [Lexeme.isClear, Bool.and_eq_true, decide_eq_true_eq, Bool.or_eq_true, Option.isNone_iff_eq_none, ne_eq,
    List.cons.injEq, and_true] at hclear
  obtain ⟨⟨hescape, hcomment⟩, hmatch⟩ := hclear
  rw [readToken_mark_of_bars hchar hescape hb]
  by_cases hat : c = '@'
  · subst hat
    have hi : startsIdent m = false := hb .ident (by decide)
    simp [readMark, hi]
    rfl
  by_cases hhash : c = '#'
  · subst hhash
    have hi : startsHash m = false := hb .name (by decide)
    rw [readMark_hash, hi]
    rfl
  have head {d : CodePoint} (h : (m.head? == some d) = false) (t : Text) : m ≠ d :: t := by
    rintro rfl
    simp at h
  have hstar : Text.after? "/*" (c :: m) = none := by
    cases ha : Text.after? "/*" (c :: m) with
    | none => rfl
    | some t =>
      obtain ⟨rfl, hm⟩ := List.cons.inj (Text.eq_append_of_after? ha)
      exact absurd hm (head (hb .star (by decide)) t)
  have hopen : Text.after? "<!--" (c :: m) = none := by
    cases ha : Text.after? "<!--" (c :: m) with
    | none => rfl
    | some t =>
      obtain ⟨rfl, rfl⟩ := List.cons.inj (Text.eq_append_of_after? ha)
      cases hcomment.resolve_left (not_not_intro rfl)
  have hbar : Text.after? "||" (c :: m) = none := by
    cases ha : Text.after? "||" (c :: m) with
    | none => rfl
    | some t =>
      obtain ⟨rfl, hm⟩ := List.cons.inj (Text.eq_append_of_after? ha)
      exact absurd hm (head (hb .bar (by decide)) t)
  simp only [readMark_literal ⟨hat, hhash, hbracket, hquote⟩, hstar, hopen, hbar]
  unfold readLiteral
  split
  · rename_i t
    refine if_neg fun hm => ?_
    rcases isMatcher_cases hm with rfl | rfl | rfl | rfl | rfl
    · simp at hmatch
    all_goals exact head (hb .equals (by decide)) t rfl
  · rfl

end Marks

section Numbers

variable {r u m : Text}

theorem exists_cons_of_starts {b : Text} (h : startsDigit b = true ∨ startsPoint b = true) :
    ∃ d t, b = d :: t ∧ isSpace d = false ∧ isNameStart d = false ∧ d ≠ '-' ∧ d ≠ '\\' := by
  cases b with
  | nil => rcases h with h | h <;> cases h
  | cons d t =>
    refine ⟨d, t, rfl, ?_⟩
    rcases h with h | h
    · have hd : d.isDigit = true := h
      refine ⟨isSpace_of_isDigit hd, isNameStart_of_isDigit hd, ?_, ?_⟩ <;> rintro rfl <;> cases hd
    · by_cases hd : d = '.'
      · subst hd
        decide
      · rw [startsPoint_of_ne hd] at h
        cases h

theorem readToken_numeric (hr : IsNumber r) (hd : startsDigit m = false) (hp : isWhole r = true → startsPoint m = false)
    (he : takeExponent m = ([], m)) : ∃ c s, r ++ m = c :: s ∧ readToken c s = readNumeric r m := by
  have hn := hr.takeNumber?_append hd hp he
  have done {c : CodePoint} {s : Text} (hs : r ++ m = c :: s) (hspace : isSpace c = false) (hstart : isNameStart c = false)
      (harrow : Text.after? "-->" (c :: s) = none) (hi : startsIdent (c :: s) = false) :
      ∃ c s, r ++ m = c :: s ∧ readToken c s = readNumeric r m := by
    refine ⟨c, s, hs, ?_⟩
    rw [hs] at hn
    simp [readToken, hspace, rangeStart?_eq_none hstart, harrow, hi, hn]
  obtain ⟨sign, b, rfl, hs, hb⟩ := hr.exists_sign
  obtain ⟨d, t, rfl, hspace, hstart, hdash, hescape⟩ := exists_cons_of_starts hb
  rcases hs with rfl | rfl | rfl
  · refine done rfl hspace hstart (after?_arrow_of_ne hdash _) ?_
    rw [startsIdent_of_ne hdash, hstart, startsEscape_of_ne hescape]
    rfl
  · exact done rfl rfl rfl rfl rfl
  · refine done rfl rfl rfl ?_ ?_
    · simp [Text.after?, Text.ofString, Ne.symm hdash]
    · simp [startsIdent, hstart, hdash, startsEscape_of_ne hescape]

theorem isReadBack_number (hr : IsNumber r) (hb : ∀ f ∈ (Lexeme.leaf (.number r)).bars, f.shownBy m = false) :
    IsReadBack (.leaf (.number r)) m := by
  obtain ⟨hthree, hpoint⟩ := List.forall_mem_append.1 hb
  have hi : startsIdent m = false := hthree .ident (by simp)
  have hd : startsDigit m = false := hthree .digit (by simp)
  have hper : (m.head? == some (.char '%')) = false := hthree .percent (by simp)
  have hp (hw : isWhole r = true) : startsPoint m = false := hpoint .point (by simp [hw])
  have he : takeExponent m = ([], m) := by
    cases m with
    | nil => rfl
    | cons c m =>
      refine takeExponent_of_ne ?_ m
      constructor <;> rintro rfl <;> cases hi
  obtain ⟨c, s, hs, ht⟩ := readToken_numeric hr hd hp he
  refine ⟨c, s, hs, ?_⟩
  rw [ht]
  unfold readNumeric
  rw [if_neg (by simp [hi])]
  split
  · cases hper
  · rfl

theorem isReadBack_percentage (hr : IsNumber r) (m : Text) : IsReadBack (.leaf (.percentage r)) m := by
  obtain ⟨c, s, hs, ht⟩ := readToken_numeric hr (m := .char '%' :: m) rfl (fun _ => rfl) (takeExponent_of_ne (by decide) m)
  refine ⟨c, s, by rw [← hs]; simp [Lexeme.spell, Leaf.write], ?_⟩
  rw [ht]
  rfl

theorem isReadBack_dimension (hr : IsNumber r) (hu : u ≠ []) (hx : isExponentLike u = false) (hread : rereadUnit u = u)
    (hm : startsHash m = false) : IsReadBack (.leaf (.dimension r u)) m := by
  have hi := startsIdent_writeUnit hu m
  obtain ⟨hd, hp⟩ := startsDigit_of_startsIdent hi
  obtain ⟨c, s, hs, ht⟩ := readToken_numeric hr hd (fun _ => hp) (takeExponent_writeUnit hx hu m)
  refine ⟨c, s, by rw [← hs]; simp [Lexeme.spell, Leaf.write], ?_⟩
  unfold readNumeric at ht
  rw [ht, if_pos hi, takeName_writeUnit u hm, hread]

end Numbers

section Names

variable {n m : Text}

/-- Behind the first character of a written name stands what the name goes on with, or what stands behind the name. -/
theorem head?_writeName_ne {d : CodePoint} (hd : isNameChar d = false) (he : d ≠ '\\') (hm : n = [] → m.head? ≠ some d) :
    (writeName n ++ m).head? ≠ some d := by
  cases n with
  | nil => exact hm rfl
  | cons c n =>
    rw [writeName, List.flatMap_cons, List.append_assoc]
    rcases exists_writeNameChar_append c (n.flatMap writeNameChar ++ m) with ⟨t, ht, hc⟩ | ⟨t, ht⟩
    · rw [ht]
      rintro h
      obtain rfl := Option.some.inj h
      rw [hd] at hc
      cases hc
    · rw [ht]
      intro h
      exact he (Option.some.inj h).symm

theorem after?_arrow_writeIdent (hn : n ≠ []) (ha : n = [.char '-', .char '-'] → m.head? ≠ some (.char '>')) :
    Text.after? "-->" (writeIdent n ++ m) = none := by
  cases hafter : Text.after? "-->" (writeIdent n ++ m) with
  | none => rfl
  | some r =>
    have heq : writeIdent n ++ m = .char '-' :: .char '-' :: .char '>' :: r := Text.eq_append_of_after? hafter
    exfalso
    unfold writeIdent at heq
    split at heq
    · exact absurd (List.cons.inj heq).1 (by decide)
    · rename_i s
      have heq : writeName s ++ m = .char '>' :: r := (List.cons.inj (List.cons.inj heq).2).2
      refine head?_writeName_ne (d := '>') (n := s) (m := m) rfl (by decide) ?_ (by rw [heq]; rfl)
      rintro rfl
      exact ha rfl
    · rename_i s h₁ h₂
      cases s with
      | nil => exact h₁ rfl
      | cons d s =>
        have heq : writeNameStart d ++ writeName s ++ m = .char '-' :: .char '>' :: r := (List.cons.inj heq).2
        rw [List.append_assoc] at heq
        rcases writeNameStart_cases d with ⟨hw, -⟩ | ⟨hw, -⟩
        · rw [hw] at heq
          exact h₂ s (by rw [(List.cons.inj heq).1])
        · obtain ⟨u, hu, -⟩ := hw.exists_takeEscape
          rw [hu] at heq
          exact absurd (List.cons.inj heq).1 (by decide)
    · rename_i h₁ h₂ h₃
      cases n with
      | nil => exact hn rfl
      | cons d n =>
        rw [writeIdentBody, List.append_assoc] at heq
        rcases writeNameStart_cases d with ⟨hw, hd⟩ | ⟨hw, -⟩
        · rw [hw] at heq
          exact h₃ n (by rw [(List.cons.inj heq).1])
        · obtain ⟨u, hu, -⟩ := hw.exists_takeEscape
          rw [hu] at heq
          exact absurd (List.cons.inj heq).1 (by decide)

theorem readToken_name (hn : n ≠ []) (hr : ∀ c, n = [c] → rangeStart? c m = none)
    (ha : n = [.char '-', .char '-'] → m.head? ≠ some (.char '>')) :
    ∃ c s, writeIdent n ++ m = c :: s ∧ readToken c s = readIdentLike (writeIdent n ++ m) := by
  have hi := startsIdent_writeIdent hn m
  have harrow := after?_arrow_writeIdent hn ha
  have done {c : CodePoint} {s : Text} (hs : writeIdent n ++ m = c :: s) (hspace : isSpace c = false)
      (hrange : rangeStart? c s = none) :
      ∃ c s, writeIdent n ++ m = c :: s ∧ readToken c s = readIdentLike (writeIdent n ++ m) := by
    refine ⟨c, s, hs, ?_⟩
    rw [hs] at hi harrow ⊢
    simp [readToken, hspace, hrange, harrow, hi]
  obtain ⟨c, n, rfl⟩ := List.exists_cons_of_ne_nil hn
  rcases exists_writeIdent_append c n m with ⟨t, ht, hc⟩ | ⟨t, ht⟩
  · refine done ht (isSpace_of_isNameChar hc) ?_
    by_cases hs : isNameStart c = true
    · rw [writeIdent_of_isNameStart hs] at ht
      have htail : t = writeName n ++ m := (List.cons.inj ht).2.symm
      subst htail
      cases n with
      | nil => exact hr c rfl
      | cons d n =>
        have hplus := head?_writeName_ne (d := '+') (n := d :: n) (m := m) rfl (by decide) (by simp)
        unfold rangeStart?
        split
        · rename_i heq
          rw [heq] at hplus
          exact absurd rfl hplus
        · rfl
    · exact rangeStart?_eq_none (by simpa using hs) t
  · exact done ht rfl (rangeStart?_eq_none rfl t)

theorem isReadBack_ident (hn : n ≠ []) (hc : (Lexeme.leaf (.ident n)).isClear m = true) (hm : startsHash m = false)
    (hp : (m.head? == some (.char '(')) = false) : IsReadBack (.leaf (.ident n)) m := by
  obtain ⟨hr, ha⟩ := Bool.and_eq_true_iff.1 hc
  obtain ⟨c, s, hs, ht⟩ := readToken_name (n := n) (m := m) hn
    (by
      rintro c rfl
      simpa using hr)
    (by
      rintro rfl
      simpa using ha)
  refine ⟨c, s, hs, ?_⟩
  have hafter : Text.after? [.char '('] m = none := by
    cases m with
    | nil => rfl
    | cons d m =>
      have hd : d ≠ '(' := by simpa using hp
      simp [Text.after?, Ne.symm hd]
  rw [ht]
  simp [readIdentLike, takeName_writeIdent n hm, hafter]

theorem isReadBack_function (hn : n ≠ []) (hu : Text.asciiLower n = "url" → m.head? = some (.char '"')) :
    IsReadBack (.function n) m := by
  have hparen : startsHash (.char '(' :: m) = false := rfl
  obtain ⟨c, s, hs, ht⟩ := readToken_name (n := n) (m := .char '(' :: m) hn (fun _ _ => rfl) (fun _ => by simp)
  refine ⟨c, s, by simpa [Lexeme.spell] using hs, ?_⟩
  have hafter : Text.after? [.char '('] (CodePoint.char '(' :: m) = some m := rfl
  rw [ht]
  simp only [readIdentLike, takeName_writeIdent n hparen, hafter]
  refine if_neg fun h => ?_
  obtain ⟨hurl, hdouble, -⟩ := h
  have hq := hu hurl
  obtain ⟨t, rfl⟩ := List.head?_eq_some_iff.1 hq
  exact hdouble rfl

end Names

section Urls

variable {v m : Text}

theorem takeUrl_writeUrl_close (hv : IsPrintable v) (m : Text) :
    takeUrl (v.flatMap writeUrlChar ++ .char ')' :: m) = (v, .closed, m) := by
  rw [takeUrl_writeUrl hv, takeUrl_close, List.append_nil]

/-- What is written of a URL starts with neither spacing nor a quote. -/
theorem writeUrl_head (hv : IsPrintable v) {t : Text} (ht : t.head?.all (· == .char ')') = true) :
    (v.flatMap writeUrlChar ++ t).dropWhile isSpace = v.flatMap writeUrlChar ++ t ∧
      (v.flatMap writeUrlChar ++ t).head? ≠ some (.char '"') ∧ (v.flatMap writeUrlChar ++ t).head? ≠ some (.char '\'') := by
  have start {c : CodePoint} {s : Text} (hs : isSpace c = false) (h₁ : c ≠ '"') (h₂ : c ≠ '\'') :
      (c :: s).dropWhile isSpace = c :: s ∧ (c :: s).head? ≠ some (.char '"') ∧ (c :: s).head? ≠ some (.char '\'') :=
    ⟨List.dropWhile_cons_of_neg (by simp [hs]), by simpa using h₁, by simpa using h₂⟩
  cases v with
  | nil =>
    cases t with
    | nil => simp
    | cons c t =>
      obtain rfl : c = ')' := by simpa using ht
      exact start rfl (by decide) (by decide)
  | cons c v =>
    rw [List.flatMap_cons, List.append_assoc]
    rcases writeUrlChar_cases (hv c List.mem_cons_self) with ⟨hw, -, hs, -, hb⟩ | he
    · rw [hw]
      exact start hs (fun h => hb (.inl h)) fun h => hb (.inr (.inl h))
    · obtain ⟨u, hu, -⟩ := he.exists_takeEscape
      rw [hu]
      exact start rfl (by decide) (by decide)

theorem readToken_url {t : Text} (hd : t.dropWhile isSpace = t) (hq : t.head? ≠ some (.char '"') ∧ t.head? ≠ some (.char '\'')) :
    readToken 'u' ("rl(" ++ t) = readUrl t := by
  have hname : takeName (.char 'u' :: ("rl(" ++ t)) = (("url" : Text), .char '(' :: t) :=
    takeName_writeName (m := .char '(' :: t) "url" rfl
  have hread : readToken 'u' ("rl(" ++ t) = readIdentLike (.char 'u' :: ("rl(" ++ t)) := rfl
  have hafter : Text.after? [.char '('] (CodePoint.char '(' :: t) = some t := rfl
  rw [hread]
  simp only [readIdentLike, hname, hafter, hd]
  exact if_pos ⟨rfl, hq⟩

theorem isReadBack_url (hv : IsPrintable v) (m : Text) : IsReadBack (.leaf (.url v true)) m := by
  obtain ⟨hd, hq⟩ := writeUrl_head hv (t := .char ')' :: m) rfl
  refine ⟨'u', "rl(" ++ (v.flatMap writeUrlChar ++ .char ')' :: m), by simp [Lexeme.spell, Leaf.write, Text.ofString], ?_⟩
  rw [readToken_url hd hq, readUrl, takeUrl_writeUrl_close hv]

theorem lexemes_url_atEnd (hv : IsPrintable v) : lexemes ("url(" ++ v.flatMap writeUrlChar) = (CutOff.url v).lexemes := by
  obtain ⟨hd, hq⟩ := writeUrl_head hv (t := []) rfl
  have hend : takeUrl [] = ([], .atEnd, []) := by rw [takeUrl]
  have hv : takeUrl (v.flatMap writeUrlChar) = (v, .atEnd, []) := by
    rw [← List.append_nil (v.flatMap writeUrlChar), takeUrl_writeUrl hv, hend, List.append_nil]
  rw [List.append_nil] at hd hq
  have hread := readToken_url hd hq
  have hcons : ("url(" : Text) ++ v.flatMap writeUrlChar = .char 'u' :: (("rl(" : Text) ++ v.flatMap writeUrlChar) := rfl
  rw [hcons, lexemes_cons, hread, readUrl, hv, lexemes_nil]
  rfl

theorem takeUrl_badUrl (m : Text) : takeUrl ("[bad url])" ++ m) = (("[bad" : Text), UrlEnd.bad, m) := by
  have hplain : ("[bad url])" : Text) ++ m = ("[bad" : Text).flatMap writeUrlChar ++ (.char ' ' :: (("url])" : Text) ++ m)) := rfl
  have hprintable : IsPrintable "[bad" := by unfold IsPrintable; decide
  have hskip : skipBadUrl (("url])" : Text) ++ m) = m := by
    have skip {c : CodePoint} (hc : c ≠ ')') (he : c ≠ '\\') (s : Text) : skipBadUrl (c :: s) = skipBadUrl s :=
      skipBadUrl_skip hc fun h => absurd h he
    have hcons : ("url])" : Text) ++ m = .char 'u' :: .char 'r' :: .char 'l' :: .char ']' :: .char ')' :: m := rfl
    rw [hcons, skip (by decide) (by decide), skip (by decide) (by decide), skip (by decide) (by decide),
      skip (by decide) (by decide), skipBadUrl_close]
  have hend : urlEnd ((("url])" : Text) ++ m).dropWhile isSpace) = ([], .bad, skipBadUrl (("url])" : Text) ++ m)) := rfl
  rw [hplain, takeUrl_writeUrl hprintable, takeUrl_space rfl, hend, hskip, List.append_nil]

theorem isReadBack_badUrl (m : Text) : IsReadBack (.leaf (.error .badUrl)) m := by
  have hcons : (Lexeme.leaf (.error .badUrl)).spell ++ m = .char 'u' :: (("rl(" : Text) ++ (("[bad url])" : Text) ++ m)) := rfl
  refine ⟨_, _, hcons, ?_⟩
  rw [readToken_url rfl (by constructor <;> intro h <;> cases h), readUrl, takeUrl_badUrl]

theorem isReadBack_unicodeRange {low high : Nat} (hl : low < 16 ^ 6) (hh : high < 16 ^ 6) (hm : carriesRange m = false) :
    IsReadBack (.leaf (.unicodeRange low high)) m := by
  have hrange := takeRange_write hl hh hm
  have hcons : (Lexeme.leaf (.unicodeRange low high)).spell ++ m =
      .char 'U' :: .char '+' :: (Text.hexOfNat low ++ (if low = high then [] else .char '-' :: Text.hexOfNat high) ++ m) := rfl
  refine ⟨_, _, hcons, ?_⟩
  generalize hrest : Text.hexOfNat low ++ (if low = high then [] else .char '-' :: Text.hexOfNat high) ++ m = rest at hrange
  obtain ⟨d, t, hd⟩ := List.exists_cons_of_ne_nil (hexOfNat_ne_nil low)
  have hx : Text.isHexDigit d = true := isHexDigit_of_mem_hexOfNat low d (by rw [hd]; exact List.mem_cons_self)
  have hstart : rangeStart? 'U' (.char '+' :: rest) = some rest := by
    rw [← hrest, hd]
    simp [rangeStart?, hx]
  have hs : isSpace 'U' = false := by decide
  simp [readToken, hs, hstart, hrange]

end Urls

end StylePrune.Css
