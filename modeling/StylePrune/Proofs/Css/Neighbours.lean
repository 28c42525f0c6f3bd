import Mathlib
import StylePrune.Proofs.Css.Complete
import StylePrune.Proofs.Css.Reading

/-!
Tokens side by side. What was read as a token is as the reader makes such tokens, and nothing that would carry it on stands at
the start of the token behind it.
-/

set_option autoImplicit false

namespace StylePrune.Css

/-- What the text of a token starts with, as far as the token before it is concerned. -/
def Lexeme.lead : Lexeme → Text
  | .leaf (.whitespace _) => [.char ' ']
  | .leaf (.ident _) | .leaf (.url ..) | .leaf (.unicodeRange ..) | .leaf (.error .badUrl) | .function _ => "u"
  | .leaf (.number r) | .leaf (.percentage r) | .leaf (.dimension r _) => r
  | .leaf (.literal s) => if s = [.char '\\'] then [] else s
  | .opening b => [b.opener]
  | _ => []

/-- The second token does not start with what would carry the first one on. -/
def Abuts (x y : Lexeme) : Prop := ∀ f ∈ x.bars, f.shownBy y.lead = false

theorem Abuts.of_bars {x : Lexeme} (h : x.bars = []) (y : Lexeme) : Abuts x y := by simp [Abuts, h]

@[simp] theorem Feature.shownBy_nil (f : Feature) : f.shownBy [] = false := by cases f <;> rfl

theorem Abuts.of_lead {y : Lexeme} (h : y.lead = []) (x : Lexeme) : Abuts x y := by simp [Abuts, h]

section Features

variable {s t r : Text}

theorem startsHash_takeName (s : Text) : startsHash (takeName s).2 = false := by
  fun_induction takeName s with
  | case1 => rfl
  | case2 c s h v r e ih => simpa [e] using ih
  | case3 c s h h' hl v r e ih => simpa [e] using ih
  | case4 c s hc he => simpa [startsHash] using And.intro hc he

theorem startsHash_of_startsIdent (h : startsIdent s = true) : startsHash s = true := by
  cases s with
  | nil => cases h
  | cons c s =>
    rw [startsHash, Bool.or_eq_true]
    exact isNameChar_or_startsEscape h

theorem startsIdent_dash (h : startsIdent s = true) : startsIdent ('-' :: s) = true := by
  cases s with
  | nil => cases h
  | cons c s =>
    by_cases hc : c = '-'
    · rw [hc]
      rfl
    · rw [startsIdent_of_ne hc, Bool.or_eq_true] at h
      rcases h with h | h <;> simp [startsIdent, h]

theorem startsEscape_of_forall (hs : ∀ c ∈ s, c ≠ .char '\\') : startsEscape s = false := by
  cases s with
  | nil => rfl
  | cons c s => exact startsEscape_of_ne (hs c List.mem_cons_self) s

theorem startsIdent_dash_iff (hs : ∀ c ∈ s, c ≠ .char '\\') :
    startsIdent ('-' :: s) = s.head?.any fun c => isNameStart c || c == '-' := by
  have he := startsEscape_of_forall hs
  cases s with
  | nil => rfl
  | cons c s => simp [startsIdent, he]

/-- What a text without backslashes shows, every longer one does. -/
theorem Feature.shownBy_append {f : Feature} (hs : ∀ c ∈ s, c ≠ .char '\\') (h : f.shownBy s = true) (t : Text) :
    f.shownBy (s ++ t) = true := by
  have dash {s : Text} (hs : ∀ c ∈ s, c ≠ .char '\\') (h : startsIdent ('-' :: s) = true) (t : Text) :
      startsIdent ('-' :: (s ++ t)) = true := by
    rw [startsIdent_dash_iff hs] at h
    cases s with
    | nil => cases h
    | cons c s =>
      have h : (isNameStart c || c == '-') = true := h
      simp only [List.cons_append, startsIdent, h, Bool.true_or]
  cases s with
  | nil => simp at h
  | cons c s =>
    obtain ⟨hc, hs'⟩ := List.forall_mem_cons.1 hs
    cases f with
    | name =>
      have h : (isNameChar c || startsEscape (c :: s)) = true := h
      rw [startsEscape_of_ne hc, Bool.or_false] at h
      simp [shownBy, startsHash, h]
    | ident =>
      have h : startsIdent (c :: s) = true := h
      by_cases hd : c = '-'
      · subst hd
        exact dash hs' h t
      · rw [startsIdent_of_ne hd, startsEscape_of_ne hc, Bool.or_false] at h
        rw [shownBy, List.cons_append, startsIdent_of_ne hd, h, Bool.true_or]
    | dashed => exact dash hs h t
    | point =>
      have h : startsPoint (c :: s) = true := h
      unfold startsPoint at h
      split at h
      · rename_i u heq
        obtain ⟨rfl, rfl⟩ := List.cons.inj heq
        cases s with
        | nil => cases h
        | cons d s => exact h
      · cases h
    | _ => exact h

theorem shownBy_u {f : Feature} (h : f.shownBy "u" = true) (hs : startsIdent s = true) : f.shownBy s = true := by
  cases f with
  | name => exact startsHash_of_startsIdent hs
  | ident => exact hs
  | dashed => exact startsIdent_dash hs
  | _ => cases h

theorem IsNumber.not_backslash (h : IsNumber r) : ∀ c ∈ r, c ≠ .char '\\' := by
  have digit {ds : Text} (hd : ∀ c ∈ ds, c.isDigit = true) : ∀ c ∈ ds, c ≠ .char '\\' := by
    rintro c hc rfl
    exact absurd (hd _ hc) (by decide)
  have sign {sg : Text} (hs : IsSign sg) : ∀ c ∈ sg, c ≠ .char '\\' := by
    rcases hs with rfl | rfl | rfl <;> simp
  obtain ⟨hs, hw, hf, -, he⟩ := h
  refine List.forall_mem_append.2 ⟨List.forall_mem_append.2 ⟨sign hs, List.forall_mem_append.2 ⟨digit hw, ?_⟩⟩, ?_⟩
  · cases hf with
    | none => exact List.forall_mem_nil _
    | some hd => exact List.forall_mem_cons.2 ⟨by decide, digit hd.2⟩
  · cases he with
    | none => exact List.forall_mem_nil _
    | some hc hs hd =>
      refine List.forall_mem_cons.2 ⟨?_, List.forall_mem_append.2 ⟨sign hs, digit hd.2⟩⟩
      rcases hc with rfl | rfl <;> decide

end Features

/-- What was read does not go on in the rest. -/
theorem Reading.bars {s r : Text} {x : Lexeme} (h : Reading s [x] r) : ∀ f ∈ x.bars, f.shownBy r = false := by
  have name {s n r : Text} (h : takeName s = (n, r)) : startsHash r = false := by
    have := startsHash_takeName s
    rwa [h] at this
  have none : ∀ f ∈ ([] : List Feature), f.shownBy r = false := List.forall_mem_nil _
  generalize hx : [x] = xs at h
  cases h with
  | urlAtEnd | stringAtEnd => simp [CutOff.lexemes] at hx
  | whitespace hs hw ha hr =>
    obtain rfl := List.singleton_inj.1 hx
    exact List.forall_mem_singleton.2 hr
  | ident hs hn hr =>
    obtain rfl := List.singleton_inj.1 hx
    exact List.forall_mem_cons.2 ⟨name hn, List.forall_mem_singleton.2 (by simpa [Feature.shownBy] using hr)⟩
  | number hn hi hp =>
    obtain rfl := List.singleton_inj.1 hx
    obtain ⟨-, hd, hpoint⟩ := isNumber_of_takeNumber? hn
    refine List.forall_mem_append.2 ⟨?_, ?_⟩
    · simpa [Feature.shownBy] using ⟨hi, hd, hp⟩
    · split
      · exact List.forall_mem_singleton.2 (hpoint ‹_›)
      · exact none
  | dimension hn hi hu =>
    obtain rfl := List.singleton_inj.1 hx
    exact List.forall_mem_singleton.2 (name hu)
  | atKeyword hs hi hn =>
    obtain rfl := List.singleton_inj.1 hx
    exact List.forall_mem_singleton.2 (name hn)
  | hash hs hh hn =>
    obtain rfl := List.singleton_inj.1 hx
    exact List.forall_mem_singleton.2 (name hn)
  | mark hs hc hb =>
    obtain rfl := List.singleton_inj.1 hx
    exact hb
  | word hs hu =>
    obtain rfl := List.singleton_inj.1 hx
    simp only [List.mem_cons, List.not_mem_nil, or_false] at hu
    rcases hu with rfl | rfl | rfl <;> exact none
  | _ =>
    obtain rfl := List.singleton_inj.1 hx
    exact none

/-- A token shows no more than the text that it was read from. -/
theorem Reading.lead {s r : Text} {x : Lexeme} {xs : List Lexeme} (h : Reading s (x :: xs) r) {f : Feature}
    (hf : f.shownBy x.lead = true) : f.shownBy s = true := by
  have number {u n : Text} (hn : takeNumber? s = some (u, n)) (hf : f.shownBy u = true) : f.shownBy s = true := by
    rw [← (takeNumber?_append hn).1]
    exact f.shownBy_append (isNumber_of_takeNumber? hn).1.not_backslash hf n
  have none (hf : f.shownBy [] = true) : f.shownBy s = true := by simp at hf
  generalize hx : x :: xs = ls at h
  cases h with
  | whitespace hs hw ha =>
    obtain rfl := (List.cons.inj hx).1
    obtain ⟨c, w, rfl⟩ := List.exists_cons_of_ne_nil hw
    have hc := ha c List.mem_cons_self
    cases f with
    | space => rw [hs]; exact hc
    | _ => cases hf
  | ident hs | function hs | url hs | badUrl hs | urlAtEnd hs =>
    obtain rfl := (List.cons.inj hx).1
    exact shownBy_u hf hs
  | range hs hc =>
    obtain rfl := (List.cons.inj hx).1
    refine shownBy_u hf ?_
    rcases hc with rfl | rfl <;> rw [hs] <;> rfl
  | number hn | percentage hn | dimension hn =>
    obtain rfl := (List.cons.inj hx).1
    exact number hn hf
  | opening hs =>
    obtain rfl := (List.cons.inj hx).1
    rename_i b
    rw [hs, ← List.singleton_append]
    exact f.shownBy_append (List.forall_mem_singleton.2 (by cases b <;> decide)) hf r
  | mark hs =>
    obtain rfl := (List.cons.inj hx).1
    rename_i c
    rw [Lexeme.lead] at hf
    split at hf
    · exact none hf
    · rename_i hc
      rw [hs, ← List.singleton_append]
      exact f.shownBy_append (List.forall_mem_singleton.2 fun he => hc (by rw [he])) hf _
  | matcher hs hc =>
    obtain rfl := (List.cons.inj hx).1
    rename_i c
    rw [Lexeme.lead, if_neg (by simp)] at hf
    rw [hs]
    refine f.shownBy_append (s := [c, .char '=']) ?_ hf r
    simp only [isMatcher, Bool.or_eq_true, beq_iff_eq] at hc
    rcases hc with (((rfl | rfl) | rfl) | rfl) | rfl <;> decide
  | word hs hu =>
    obtain rfl := (List.cons.inj hx).1
    rw [hs]
    simp only [List.mem_cons, List.not_mem_nil, or_false] at hu
    rcases hu with rfl | rfl | rfl <;> exact f.shownBy_append (by decide) hf _
  | _ =>
    obtain rfl := (List.cons.inj hx).1
    exact none hf

/-- How tokens of a text stand side by side: a broken string ends before the newline that broke it. -/
def Meets (x y : Lexeme) : Prop := Abuts x y ∧ (x = .leaf (.error .badString) → y.isTrivia = true)

theorem Meets.of_bars {x : Lexeme} (h : x.bars = []) (hb : x ≠ .leaf (.error .badString)) (y : Lexeme) : Meets x y :=
  ⟨.of_bars h y, fun he => absurd he hb⟩

theorem exists_readToken (c : CodePoint) (s : Text) : ∃ x xs, (readToken c s).1 = x :: xs := by
  have ho := outcome_readToken c s
  generalize readToken c s = o at ho
  cases ho <;> exact ⟨_, _, rfl⟩

theorem Reading.head?_of_badString {s r : Text} (h : Reading s [.leaf (.error .badString)] r) : r.head? = some (.char '\n') := by
  cases h with
  | badString _ _ hr => exact hr

/-- A token of a text and the token behind it. -/
theorem Reading.meets {s r : Text} {x : Lexeme} (h : Reading s [x] r) {y : Lexeme}
    (hy : y ∈ (lexemes r ++ [Lexeme.closing .curly]).head?) : Meets x y := by
  cases r with
  | nil =>
    obtain rfl : Lexeme.closing .curly = y := by simpa using hy
    refine ⟨.of_lead rfl x, ?_⟩
    rintro rfl
    cases h.head?_of_badString
  | cons c r =>
    obtain ⟨z, zs, hz⟩ := exists_readToken c r
    have hread := reading_readToken c r
    rw [lexemes_cons, hz] at hy
    rw [hz] at hread
    obtain rfl : z = y := by simpa using hy
    refine ⟨fun f hf => ?_, ?_⟩
    · rw [Bool.eq_false_iff]
      intro hl
      have := h.bars f hf
      rw [hread.lead hl] at this
      cases this
    · rintro rfl
      obtain rfl : c = '\n' := Option.some.inj h.head?_of_badString
      have hspace : readToken '\n' r = ([.leaf (.whitespace (.char '\n' :: r.takeWhile isSpace))], r.dropWhile isSpace) :=
        if_pos rfl
      rw [hspace] at hz
      obtain ⟨rfl, -⟩ := List.cons.inj hz
      rfl

/-- Tokens of a text meet, one after the other up to the end. -/
theorem isChain_lexemes (s : Text) : List.IsChain Meets (lexemes s ++ [.closing .curly]) := by
  induction hl : s.length using Nat.strongRecOn generalizing s with
  | ind n ih =>
    subst hl
    cases s with
    | nil => simp
    | cons c s =>
      have ih := ih _ (Nat.lt_succ_of_le (readToken_length c s)) _ rfl
      have hread := reading_readToken c s
      have ho := outcome_readToken c s
      rw [lexemes_cons]
      generalize readToken c s = o at ho hread ih
      have single {x : Lexeme} {r : Text} (h : Reading (c :: s) [x] r)
          (ih : List.IsChain Meets (lexemes r ++ [.closing .curly])) :
          List.IsChain Meets ([x] ++ lexemes r ++ [.closing .curly]) :=
        List.isChain_cons.2 ⟨fun y hy => h.meets hy, ih⟩
      cases ho with
      | cut x =>
        have hx : (Lexeme.leaf x.leaf).bars = [] ∧ Lexeme.leaf x.leaf ≠ .leaf (.error .badString) := by
          cases x <;> simp [CutOff.leaf, Lexeme.bars]
        have he : (Lexeme.leaf (.error x.error)).bars = [] ∧ Lexeme.leaf (.error x.error) ≠ .leaf (.error .badString) := by
          cases x <;> simp [CutOff.error, Lexeme.bars]
        simpa [CutOff.lexemes] using ⟨Meets.of_bars hx.1 hx.2 _, Meets.of_bars he.1 he.2 _⟩
      | _ => exact single hread ih

/-- A string in quotes, or what is left of one. -/
def Lexeme.isQuoted : Lexeme → Bool
  | .leaf (.string ..) | .leaf (.error .badString) => true
  | _ => false

/-- A function that would be a URL if its argument were not in quotes. -/
def Lexeme.isUrlFunction : Lexeme → Bool
  | .function n => Text.asciiLower n = "url"
  | _ => false

/-- The argument of each such function is in quotes. -/
def QuotesUrls : List Lexeme → Prop
  | [] => True
  | x :: xs => (x.isUrlFunction = true → ∃ y ∈ (core xs).head?, y.isQuoted = true) ∧ QuotesUrls xs

theorem readToken_quote {q : CodePoint} (hq : q = '"' ∨ q = '\'') (s : Text) : readToken q s = readString q s := by
  rw [readToken_plain (by unfold IsPlainStart; rcases hq with rfl | rfl <;> decide)]
  rcases hq with rfl | rfl <;> rfl

theorem exists_lexemes_quote {q : CodePoint} (hq : q = '"' ∨ q = '\'') (s : Text) :
    ∃ x xs, lexemes (q :: s) = x :: xs ∧ x.isQuoted = true ∧ x.isTrivia = false := by
  rw [lexemes_cons, readToken_quote hq]
  unfold readString
  split <;> exact ⟨_, _, rfl, rfl, rfl⟩

theorem quotesUrls_of_not {x : Lexeme} {xs : List Lexeme} (hx : x.isUrlFunction = false) (h : QuotesUrls xs) :
    QuotesUrls (x :: xs) := ⟨by simp [hx], h⟩

theorem QuotesUrls.append {xs ys : List Lexeme} (hx : QuotesUrls xs) (hy : QuotesUrls ys) : QuotesUrls (xs ++ ys) := by
  induction xs with
  | nil => exact hy
  | cons x xs ih =>
    refine ⟨fun hurl => ?_, ih hx.2⟩
    obtain ⟨y, hy, hq⟩ := hx.1 hurl
    obtain ⟨zs, hz⟩ := List.head?_eq_some_iff.1 hy
    refine ⟨y, ?_, hq⟩
    have hcore : core (xs ++ ys) = y :: (zs ++ ys) := by
      unfold core at hz ⊢
      rw [List.dropWhile_append, hz]
      rfl
    exact congrArg List.head? hcore

theorem quotesUrls_lexemes (s : Text) : QuotesUrls (lexemes s) := by
  induction hl : s.length using Nat.strongRecOn generalizing s with
  | ind n ih =>
    subst hl
    cases s with
    | nil => simp [QuotesUrls]
    | cons c s =>
      have ih := ih _ (Nat.lt_succ_of_le (readToken_length c s)) _ rfl
      have hread := reading_readToken c s
      rw [lexemes_cons]
      generalize readToken c s = o at hread ih
      obtain ⟨ls, r⟩ := o
      cases hread with
      | @function name _ _ _ hu =>
        refine ⟨fun hurl => ?_, ih⟩
        have hname : Text.asciiLower name = "url" := by simpa [Lexeme.isUrlFunction] using hurl
        obtain ⟨q, t, hq, ht⟩ : ∃ (q : CodePoint) (t : Text), (q = '"' ∨ q = '\'') ∧ r.dropWhile isSpace = q :: t := by
          rcases hu hname with h | h
          · obtain ⟨t, ht⟩ := List.head?_eq_some_iff.1 h
            exact ⟨_, t, .inl rfl, ht⟩
          · obtain ⟨t, ht⟩ := List.head?_eq_some_iff.1 h
            exact ⟨_, t, .inr rfl, ht⟩
        obtain ⟨x, xs, hx, hquoted, htrivia⟩ := exists_lexemes_quote hq t
        have hcore : core (lexemes r) = x :: xs := by
          rw [← core_lexemes_dropWhile, ht, hx, core, List.dropWhile_cons_of_neg (by simp [htrivia])]
        exact ⟨x, congrArg List.head? hcore, hquoted⟩
      | urlAtEnd | stringAtEnd => exact quotesUrls_of_not rfl (quotesUrls_of_not rfl ih)
      | _ => exact quotesUrls_of_not rfl ih

end StylePrune.Css
