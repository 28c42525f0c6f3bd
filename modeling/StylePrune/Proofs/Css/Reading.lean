import Mathlib
import StylePrune.Proofs.Css.Figures
import StylePrune.Proofs.Css.Values

/-!
What reading a token says about the text: where the token comes from, and what does not stand behind it, since it would have
become part of the token.
-/

set_option autoImplicit false

namespace StylePrune.Css

/-- What the text behind a token may start with that would carry the token on or make another one of it. -/
inductive Feature where
  | name | ident
  /-- What makes a name with a dash before it. -/
  | dashed
  | digit | point | space | paren | percent | bar | equals | star
  deriving DecidableEq

def Feature.shownBy (s : Text) : Feature → Bool
  | .name => startsHash s
  | .ident => startsIdent s
  | .dashed => startsIdent ('-' :: s)
  | .digit => startsDigit s
  | .point => startsPoint s
  | .space => s.head?.any isSpace
  | .paren => s.head? == some (.char '(')
  | .percent => s.head? == some (.char '%')
  | .bar => s.head? == some (.char '|')
  | .equals => s.head? == some (.char '=')
  | .star => s.head? == some (.char '*')

/-- What no text behind a mark starts with. -/
def markBars (c : CodePoint) : List Feature :=
  if c = '-' then [.dashed, .digit, .point]
  else if c = '+' then [.digit, .point]
  else if c = '.' then [.digit]
  else if c = '@' then [.ident]
  else if c = '#' then [.name]
  else if c = '|' then [.bar, .equals]
  else if c = '/' then [.star]
  else if c = '^' ∨ c = '$' ∨ c = '*' then [.equals]
  else []

/-- What no text behind a token starts with. -/
def Lexeme.bars : Lexeme → List Feature
  | .leaf (.whitespace _) => [.space]
  | .leaf (.ident _) => [.name, .paren]
  | .leaf (.atKeyword _) | .leaf (.hash ..) | .leaf (.dimension ..) => [.name]
  | .leaf (.number r) => [.ident, .digit, .percent] ++ if isWhole r then [.point] else []
  | .leaf (.literal [c]) => markBars c
  | _ => []

/-- A character that is a token by itself: neither spacing nor the start of a name, a number, a bracket or a string. -/
def IsMark (c : CodePoint) : Prop :=
  IsMarkChar c ∧ (∀ b : Bracket, c ≠ b.opener ∧ c ≠ b.closer) ∧ c ≠ '"' ∧ c ≠ '\''

/-- What reading one token from a text says about the text and its rest. -/
inductive Reading (s : Text) : List Lexeme → Text → Prop where
  | whitespace {w r : Text} (hs : s = w ++ r) (hw : w ≠ []) (ha : ∀ c ∈ w, isSpace c = true)
    (hr : r.head?.any isSpace = false) : Reading s [.leaf (.whitespace w)] r
  | comment {v r : Text} (hs : s.head? = some (.char '/')) : Reading s [.leaf (.comment v)] r
  | range {c : CodePoint} {t r : Text} {low high : Nat} (hs : s = c :: .char '+' :: t) (hc : c = 'u' ∨ c = 'U')
    (hr : takeRange t = (low, high, r)) : Reading s [.leaf (.unicodeRange low high)] r
  | ident {n r : Text} (hs : startsIdent s = true) (hn : takeName s = (n, r)) (hr : r.head? ≠ some (.char '(')) :
    Reading s [.leaf (.ident n)] r
  | function {n r : Text} (hs : startsIdent s = true) (hn : takeName s = (n, .char '(' :: r))
    (hu : Text.asciiLower n = "url" →
      (r.dropWhile isSpace).head? = some (.char '"') ∨ (r.dropWhile isSpace).head? = some (.char '\'')) :
    Reading s [.function n] r
  | url {t v r : Text} (hs : startsIdent s = true) (ht : t <:+ s) (hu : takeUrl t = (v, .closed, r)) :
    Reading s [.leaf (.url v true)] r
  | badUrl {r : Text} (hs : startsIdent s = true) : Reading s [.leaf (.error .badUrl)] r
  | urlAtEnd {t v : Text} (hs : startsIdent s = true) (ht : t <:+ s) (hu : takeUrl t = (v, .atEnd, [])) :
    Reading s (CutOff.url v).lexemes []
  | number {r t : Text} (hn : takeNumber? s = some (r, t)) (hi : startsIdent t = false)
    (hp : t.head? ≠ some (.char '%')) : Reading s [.leaf (.number r)] t
  | percentage {r t : Text} (hn : takeNumber? s = some (r, .char '%' :: t)) : Reading s [.leaf (.percentage r)] t
  | dimension {n r t u : Text} (hn : takeNumber? s = some (r, n)) (hi : startsIdent n = true) (hu : takeName n = (u, t)) :
    Reading s [.leaf (.dimension r u)] t
  | atKeyword {t n r : Text} (hs : s = .char '@' :: t) (hi : startsIdent t = true) (hn : takeName t = (n, r)) :
    Reading s [.leaf (.atKeyword n)] r
  | hash {t n r : Text} (hs : s = .char '#' :: t) (hh : startsHash t = true) (hn : takeName t = (n, r)) :
    Reading s [.leaf (.hash n (startsIdent t))] r
  | string {q : CodePoint} {t v r : Text} (hs : s = q :: t) (hq : q = '"' ∨ q = '\'') (hv : takeString q t = (v, .closed, r)) :
    Reading s [.leaf (.string v true)] r
  | badString {q : CodePoint} {t r : Text} (hs : s = q :: t) (hq : q = '"' ∨ q = '\'') (hr : r.head? = some (.char '\n')) :
    Reading s [.leaf (.error .badString)] r
  | stringAtEnd {q : CodePoint} {t v : Text} (hs : s = q :: t) (hq : q = '"' ∨ q = '\'') (hv : takeString q t = (v, .atEnd, [])) :
    Reading s (CutOff.string v).lexemes []
  | opening {b : Bracket} {r : Text} (hs : s = b.opener :: r) : Reading s [.opening b] r
  | closing {b : Bracket} {r : Text} (hs : s = b.closer :: r) : Reading s [.closing b] r
  | mark {c : CodePoint} {r : Text} (hs : s = c :: r) (hc : IsMark c) (hb : ∀ f ∈ markBars c, f.shownBy r = false) :
    Reading s [.leaf (.literal [c])] r
  | matcher {c : CodePoint} {r : Text} (hs : s = c :: .char '=' :: r) (hc : isMatcher c = true) :
    Reading s [.leaf (.literal [c, '='])] r
  | word {u r : Text} (hs : s = u ++ r) (hu : u ∈ [("<!--" : Text), "-->", "||"]) : Reading s [.leaf (.literal u)] r

section

variable {c q : CodePoint} {s t : Text}

theorem takeString_broken {v r : Text} (h : takeString q s = (v, .broken, r)) : r.head? = some (.char '\n') := by
  fun_induction takeString q s generalizing v with
  | case6 s =>
    obtain rfl := (Prod.mk.inj (Prod.mk.inj h).2).2
    rfl
  | _ => simp_all

theorem reading_readString (hq : c = '"' ∨ c = '\'') : Reading (c :: s) (readString c s).1 (readString c s).2 := by
  unfold readString
  split
  · exact .string rfl hq ‹_›
  · rename_i v r h
    obtain rfl := takeString_atEnd h
    exact .stringAtEnd rfl hq h
  · exact .badString rfl hq (takeString_broken ‹_›)

theorem reading_readIdentLike (hs : startsIdent s = true) : Reading s (readIdentLike s).1 (readIdentLike s).2 := by
  have hn : takeName s = ((takeName s).1, (takeName s).2) := rfl
  unfold readIdentLike
  simp only []
  split
  · rename_i r hr
    have hr := Text.eq_append_of_after? hr
    have hsuffix : r.dropWhile isSpace <:+ s := by
      have h := takeName_suffix s
      rw [hr] at h
      exact ((List.dropWhile_suffix isSpace).trans (List.suffix_cons _ r)).trans h
    split
    · unfold readUrl
      split
      · exact .url hs hsuffix ‹_›
      · rename_i v t h
        obtain rfl := takeUrl_atEnd h
        exact .urlAtEnd hs hsuffix h
      · exact .badUrl hs
    · rename_i hu
      refine .function hs (Prod.ext rfl hr) fun hname => ?_
      simpa [hname, ← or_iff_not_imp_left] using hu
  · rename_i hr
    refine .ident hs hn fun hh => ?_
    obtain ⟨t, ht⟩ := List.head?_eq_some_iff.1 hh
    have ht : (takeName s).2 = .char '(' :: t := ht
    rw [ht] at hr
    cases hr

theorem reading_readNumeric {r : Text} (h : takeNumber? s = some (r, t)) : Reading s (readNumeric r t).1 (readNumeric r t).2 := by
  unfold readNumeric
  split
  · exact .dimension h ‹_› rfl
  · rename_i hi
    split
    · exact .percentage h
    · rename_i hp
      refine .number h (by simpa using hi) fun hh => ?_
      obtain ⟨u, hu⟩ := List.head?_eq_some_iff.1 hh
      exact hp u hu

theorem shownBy_of_not_head {d : CodePoint} (h : ∀ t : Text, s ≠ d :: t) : (s.head? == some d) = false := by
  cases s with
  | nil => rfl
  | cons e s =>
    have he : e ≠ d := fun he => h s (by rw [he])
    simpa using he

theorem reading_readLiteral (hc : IsMark c) (hi : startsIdent (c :: s) = false) (hn : takeNumber? (c :: s) = none)
    (hat : c ≠ '@') (hhash : c ≠ '#') (hstar : Text.after? "/*" (c :: s) = none) (hbar : Text.after? "||" (c :: s) = none) :
    Reading (c :: s) (readLiteral c s).1 (readLiteral c s).2 := by
  have mark (hequals : isMatcher c = true → ∀ t : Text, s ≠ .char '=' :: t) : Reading (c :: s) [.leaf (.literal [c])] s := by
    refine .mark rfl hc ?_
    unfold markBars
    split_ifs with h₁ h₂ h₃ h₄ h₅ h₆
    · subst h₁
      obtain ⟨hd, hp⟩ := not_starts_of_takeNumber? (g := ['-']) (.inr (.inr rfl)) hn
      simpa [Feature.shownBy] using ⟨hi, hd, hp⟩
    · subst h₂
      obtain ⟨hd, hp⟩ := not_starts_of_takeNumber? (g := ['+']) (.inr (.inl rfl)) hn
      simpa [Feature.shownBy] using ⟨hd, hp⟩
    · subst h₃
      have hd := (not_starts_of_takeNumber? (g := []) (.inl rfl) hn).2
      exact List.forall_mem_singleton.2 hd
    · subst h₄
      have hb : (s.head? == some (.char '|')) = false := shownBy_of_not_head fun t ht => by
        rw [ht] at hbar
        cases hbar
      exact List.forall_mem_cons.2 ⟨hb, List.forall_mem_singleton.2 (shownBy_of_not_head (hequals rfl))⟩
    · subst h₅
      refine List.forall_mem_singleton.2 (shownBy_of_not_head fun t ht => ?_)
      rw [ht] at hstar
      cases hstar
    · refine List.forall_mem_singleton.2 (shownBy_of_not_head (hequals ?_))
      rcases h₆ with rfl | rfl | rfl <;> rfl
    · exact List.forall_mem_nil _
  unfold readLiteral
  split
  · rename_i r
    split
    · exact .matcher rfl ‹_›
    · rename_i hm
      exact mark fun h => absurd h hm
  · rename_i hne
    exact mark fun _ t ht => hne t ht

theorem reading_readMark (hc : IsMarkChar c) (hi : startsIdent (c :: s) = false) (hn : takeNumber? (c :: s) = none) :
    Reading (c :: s) (readMark c s).1 (readMark c s).2 := by
  by_cases hat : c = '@'
  · subst hat
    have hm : IsMark '@' := ⟨hc, fun b => by cases b <;> decide, by decide, by decide⟩
    by_cases hs : startsIdent s = true
    · simpa [readMark, hs] using Reading.atKeyword rfl hs rfl
    · simp only [readMark, hs, if_true, Bool.false_eq_true, if_false]
      have hb : ∀ f ∈ markBars '@', f.shownBy s = false := List.forall_mem_singleton.2 (Bool.eq_false_iff.2 hs)
      exact .mark rfl hm hb
  by_cases hhash : c = '#'
  · subst hhash
    have hm : IsMark '#' := ⟨hc, fun b => by cases b <;> decide, by decide, by decide⟩
    rw [readMark_hash]
    split
    · exact .hash rfl ‹_› rfl
    · rename_i hs
      have hb : ∀ f ∈ markBars '#', f.shownBy s = false := List.forall_mem_singleton.2 (Bool.eq_false_iff.2 hs)
      exact .mark rfl hm hb
  by_cases hb : ∃ b : Bracket, c = b.opener ∨ c = b.closer
  · obtain ⟨b, rfl | rfl⟩ := hb
    · cases b <;> exact .opening rfl
    · cases b <;> exact .closing rfl
  simp only [not_exists, not_or] at hb
  by_cases hq : c = '"' ∨ c = '\''
  · have hr : readMark c s = readString c s := by rcases hq with rfl | rfl <;> rfl
    rw [hr]
    exact reading_readString hq
  rw [readMark_literal ⟨hat, hhash, hb, not_or.1 hq⟩]
  split
  · rename_i r hr
    have hhead : (c :: s).head? = some (.char '/') := by rw [Text.eq_append_of_after? hr]; rfl
    unfold readComment
    split <;> exact .comment hhead
  · rename_i hstar
    split
    · exact .word (Text.eq_append_of_after? ‹_›) (by simp)
    · split
      · exact .word (Text.eq_append_of_after? ‹_›) (by simp)
      · exact reading_readLiteral ⟨hc, hb, not_or.1 hq⟩ hi hn hat hhash hstar ‹_›

theorem reading_readToken (c : CodePoint) (s : Text) : Reading (c :: s) (readToken c s).1 (readToken c s).2 := by
  unfold readToken
  split
  · rename_i hc
    refine .whitespace (by simp) (by simp) (fun d hd => ?_) ?_
    · rcases List.mem_cons.1 hd with rfl | hd
      · exact hc
      · exact List.all_eq_true.1 List.all_takeWhile d hd
    · have h := List.head?_dropWhile_not isSpace s
      split at h
      · rename_i d hd
        rw [hd]
        exact h
      · rename_i hd
        rw [hd]
        rfl
  · rename_i hsp
    split
    · rename_i r hr
      unfold rangeStart? at hr
      split at hr
      · split at hr
        · rename_i hu
          obtain rfl := Option.some.inj hr
          exact .range rfl hu.1 rfl
        · cases hr
      · cases hr
    · split
      · exact .word (Text.eq_append_of_after? ‹_›) (by simp)
      · split
        · exact reading_readIdentLike ‹_›
        · rename_i hi
          have hi : startsIdent (c :: s) = false := by simpa using hi
          split
          · exact reading_readNumeric ‹_›
          · rename_i hn
            refine reading_readMark ⟨by simpa using hsp, ?_, isDigit_of_takeNumber? hn⟩ hi hn
            by_cases hd : c = '-'
            · rw [hd]
              decide
            · rw [startsIdent_of_ne hd] at hi
              exact (Bool.or_eq_false_iff.1 hi).1

end

end StylePrune.Css
