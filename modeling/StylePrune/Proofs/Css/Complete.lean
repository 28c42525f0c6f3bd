import StylePrune.Proofs.Css.Values

/-!
Sheets that leave nothing open. Behind spacing such a sheet ends with the brace of a block or with a
semicolon, outside all levels, and its tokens stay what they are whatever follows.
-/

set_option autoImplicit false

namespace StylePrune.Css

def Lexeme.isTrivia : Lexeme → Bool
  | .leaf (.whitespace _) | .leaf (.comment _) => true
  | _ => false

/-- Tokens without the trivia in front. -/
def core (ls : List Lexeme) : List Lexeme := ls.dropWhile Lexeme.isTrivia

theorem core_cons {l : Lexeme} (h : l.isTrivia = true) (ls : List Lexeme) : core (l :: ls) = core ls :=
  List.dropWhile_cons_of_pos h

theorem dropWhile_values (ls : List Lexeme) :
    (values ls).dropWhile Component.isTrivia = (values (core ls)).dropWhile Component.isTrivia := by
  induction ls with
  | nil => rfl
  | cons l ls ih =>
    by_cases hl : l.isTrivia = true
    · rw [core_cons hl, ← ih]
      cases l with
      | leaf t =>
        have ht : (Component.leaf .first t).isTrivia = true := by
          cases t <;> first | rfl | cases hl
        rw [values_leaf, List.dropWhile_cons_of_pos ht]
      | _ => cases hl
    · rw [core, List.dropWhile_cons_of_neg hl]

/-- Whitespace and closed comments. -/
inductive Spacing : Text → Prop where
  | nil : Spacing []
  | space {c : CodePoint} {s : Text} : isSpace c = true → Spacing s → Spacing (c :: s)
  | comment {x s : Text} : Text.includes x "*/" = false → Spacing s →
      Spacing (.char '/' :: .char '*' :: (x ++ ("*/" ++ s)))

theorem Spacing.append {s t : Text} (hs : Spacing s) (ht : Spacing t) : Spacing (s ++ t) := by
  induction hs with
  | nil => exact ht
  | space hc _ ih => exact .space hc ih
  | @comment x s hx _ ih => simpa using Spacing.comment hx ih

section Reading

theorem includes_cons {c : CodePoint} {s p : Text} (h : Text.includes (c :: s) p = false) :
    Text.after? p (c :: s) = none ∧ Text.includes s p = false := by
  unfold Text.includes Text.cutAt? at h
  cases ha : Text.after? p (c :: s) with
  | some r => simp [ha] at h
  | none => simpa [ha, Text.includes] using h

/-- A comment ends where its text does. -/
theorem cutAt?_commentEnd {x : Text} (h : Text.includes x "*/" = false) (s : Text) :
    Text.cutAt? "*/" (x ++ ("*/" ++ s)) = some (x, s) := by
  induction x with
  | nil => simp [Text.ofString, Text.cutAt?, Text.after?]
  | cons c x ih =>
    obtain ⟨ha, hx⟩ := includes_cons h
    have hn : Text.after? "*/" (c :: (x ++ ("*/" ++ s))) = none := by
      cases x with
      | nil => simp [Text.ofString, Text.after?]
      | cons d x => simpa [Text.ofString, Text.after?] using ha
    rw [List.cons_append, Text.cutAt?, hn, ih hx]
    rfl

theorem readToken_comment {x : Text} (h : Text.includes x "*/" = false) (s : Text) :
    readToken '/' (.char '*' :: (x ++ ("*/" ++ s))) = ([.leaf (.comment x)], s) := by
  have hc : readComment (x ++ ("*/" ++ s)) = ([.leaf (.comment x)], s) := by
    simp only [readComment, cutAt?_commentEnd h s]
  have ha : Text.after? "/*" (.char '/' :: .char '*' :: (x ++ ("*/" ++ s))) = some (x ++ ("*/" ++ s)) := rfl
  rw [readToken_plain (by unfold IsPlainStart; decide)]
  simp only [readMark, ha, hc]
  rfl

theorem lexemes_space {c : CodePoint} (hc : isSpace c = true) (s : Text) :
    lexemes (c :: s) = .leaf (.whitespace (c :: s.takeWhile isSpace)) :: lexemes (s.dropWhile isSpace) := by
  rw [lexemes_cons, readToken, if_pos hc]
  rfl

theorem core_lexemes_dropWhile (s : Text) : core (lexemes (s.dropWhile isSpace)) = core (lexemes s) := by
  cases s with
  | nil => rfl
  | cons c s =>
    by_cases hc : isSpace c = true
    · rw [List.dropWhile_cons_of_pos hc, lexemes_space hc, core_cons rfl]
    · rw [List.dropWhile_cons_of_neg hc]

/-- Spacing reads as trivia. -/
theorem Spacing.core_lexemes {s : Text} (h : Spacing s) (v : Text) : core (lexemes (s ++ v)) = core (lexemes v) := by
  induction h with
  | nil => rfl
  | space hc _ ih => rw [List.cons_append, lexemes_space hc, core_cons rfl, core_lexemes_dropWhile, ih]
  | @comment x s hx _ ih =>
    have hr := readToken_comment hx (s ++ v)
    rw [← List.append_assoc _ s v, ← List.append_assoc x] at hr
    rw [List.cons_append, List.cons_append, lexemes_cons, hr, List.singleton_append, core_cons rfl, ih]

theorem Spacing.getLast?_not_isHard {s : Text} (h : Spacing s) : ∀ c ∈ s.getLast?, ¬ IsHard c := by
  induction h with
  | nil => simp
  | @space c s hc _ ih =>
    intro d hd
    cases s with
    | nil =>
      obtain rfl := Option.some.inj hd
      rintro (rfl | rfl | rfl) <;> cases hc
    | cons e s => exact ih d (by rwa [List.getLast?_cons_cons] at hd)
  | @comment x s _ _ ih =>
    intro d hd
    cases s with
    | nil =>
      have hl : (CodePoint.char '/' :: .char '*' :: (x ++ (Text.ofString "*/" ++ []))).getLast? = some (.char '/') := by
        rw [← List.cons_append, ← List.cons_append, List.getLast?_append]
        rfl
      obtain rfl := Option.some.inj (hl.symm.trans hd)
      rintro (h | h | h) <;> cases h
    | cons e s => exact ih d (by simpa [List.getLast?_append, List.getLast?_cons] using hd)

theorem Spacing.exists_lexemes {s : Text} (h : Spacing s) (hs : s ≠ []) (v : Text) :
    ∃ t ls, lexemes (s ++ v) = .leaf t :: ls ∧ (Lexeme.leaf t).isTrivia = true := by
  cases h with
  | nil => exact absurd rfl hs
  | space hc _ => exact ⟨_, _, lexemes_space hc _, rfl⟩
  | @comment x s hx _ =>
    have hr := readToken_comment hx (s ++ v)
    rw [← List.append_assoc _ s v, ← List.append_assoc x] at hr
    exact ⟨.comment x, _, by rw [List.cons_append, List.cons_append, lexemes_cons, hr]; rfl, rfl⟩

end Reading

/-- A token that ends a rule. -/
def Lexeme.Ends (l : Lexeme) : Prop := l = .closing .curly ∨ l = .leaf (.literal [.char ';'])

/-- A component that ends a rule. -/
def Component.Ends (c : Component) : Prop := c.isCurly = true ∨ c.isMark ";" = true

section Standing

theorem lexemes_ne_nil {s : Text} (h : s ≠ []) : lexemes s ≠ [] := by
  cases s with
  | nil => exact absurd rfl h
  | cons c s =>
    rw [lexemes_cons]
    have ho := outcome_readToken c s
    generalize readToken c s = x at ho ⊢
    cases ho <;> simp [CutOff.lexemes]

theorem readToken_ends {c : CodePoint} {s : Text} {ls : List Lexeme} {l : Lexeme} (hr : readToken c s = (ls, []))
    (hl : ls.getLast? = some l) (he : l.Ends) : s = [] ∧ IsHard c ∧ ∀ v, readToken c v = ([l], v) := by
  have ho := outcome_readToken c s
  rw [hr] at ho
  generalize hn : ([] : Text) = r at ho
  cases ho with
  | leaf t _ ht =>
    obtain rfl := Option.some.inj hl
    rcases he with he | he
    · cases he
    · obtain rfl := Lexeme.leaf.inj he
      subst hn
      obtain ⟨rfl, rfl⟩ := List.cons.inj (ht _ rfl)
      exact ⟨rfl, .inr (.inr rfl), readToken_semicolon⟩
  | cut x =>
    obtain rfl := Option.some.inj hl
    rcases he with he | he <;> cases he
  | function name =>
    obtain rfl := Option.some.inj hl
    rcases he with he | he <;> cases he
  | opening b _ =>
    obtain rfl := Option.some.inj hl
    rcases he with he | he <;> cases he
  | closing b hb =>
    obtain rfl := Option.some.inj hl
    rcases he with he | he
    · obtain rfl := Lexeme.closing.inj he
      subst hb
      exact ⟨rfl, .inr (.inl rfl), readToken_closer .curly⟩
    · cases he

/-- The token that ends a rule is one character, which no token before it can take up. -/
theorem lexemes_append_of_getLast? {s : Text} {l : Lexeme} (hl : (lexemes s).getLast? = some l) (he : l.Ends) :
    (∃ b h, s = b ++ [h] ∧ IsHard h) ∧ ∀ v, lexemes (s ++ v) = lexemes s ++ lexemes v := by
  induction hn : s.length using Nat.strongRecOn generalizing s with
  | ind n ih =>
  subst hn
  cases s with
  | nil => simp at hl
  | cons c s =>
  obtain ⟨a, ha⟩ := readToken_suffix c s
  have hlen := readToken_length c s
  have hr : readToken c s = ((readToken c s).1, (readToken c s).2) := rfl
  generalize (readToken c s).1 = ls, (readToken c s).2 = r at ha hlen hr
  subst ha
  rw [lexemes_cons, hr] at hl
  by_cases hrn : r = []
  · subst hrn
    rw [lexemes_nil, List.append_nil] at hl
    obtain ⟨hs, hc, hv⟩ := readToken_ends hr hl he
    rw [hs]
    exact ⟨⟨[], c, rfl, hc⟩, fun v => by simp [lexemes_cons, hv]⟩
  · obtain ⟨⟨b, h, rfl, hh⟩, hv⟩ := ih r.length (by simp only [List.length_append, List.length_cons]; omega)
      (by rwa [List.getLast?_append_of_ne_nil _ (lexemes_ne_nil hrn)] at hl) rfl
    refine ⟨⟨c :: (a ++ b), h, by simp, hh⟩, fun v => ?_⟩
    have hsw := readToken_swap hr (by simp) (stops_cons hh []) (stops_cons hh v)
    have he : c :: (a ++ (b ++ [h])) ++ v = c :: (a ++ (b ++ h :: v)) := by simp
    have hv : lexemes (b ++ h :: v) = lexemes (b ++ [h]) ++ lexemes v := by simpa using hv v
    rw [he, lexemes_cons, lexemes_cons, hsw, hr, hv, List.append_assoc]

theorem nesting_concat (ls : List Lexeme) (l : Lexeme) : nesting (ls ++ [l]) = (nesting ls).step (.first, l) := by
  simp [nesting]

/-- Only its last token makes a component that ends a rule outside all levels. -/
theorem getLast?_of_nesting {ls : List Lexeme} {c : Component} {cs : List Component} (h : nesting ls = ⟨[], c :: cs⟩)
    (hc : c.Ends) : ∃ l, ls.getLast? = some l ∧ l.Ends := by
  rcases List.eq_nil_or_concat ls with rfl | ⟨ls, l, rfl⟩
  · cases h
  refine ⟨l, by simp, ?_⟩
  rw [List.concat_eq_append, nesting_concat] at h
  generalize nesting ls = n at h
  obtain ⟨levels, current⟩ := n
  cases l with
  | leaf t =>
    obtain ⟨-, h⟩ := Nesting.mk.inj h
    obtain rfl := (List.cons.inj h).1
    rcases hc with hc | hc
    · cases hc
    · cases t with
      | literal u => exact .inr (by simpa [Component.isMark, Text.ofString] using hc)
      | _ => cases hc
  | opening b => cases h
  | function name => cases h
  | closing b =>
    have stray (hcs : Component.leaf .first (.error (.unmatched b)) = c) : False := by
      subst hcs
      rcases hc with hc | hc <;> cases hc
    cases levels with
    | nil => exact (stray (List.cons.inj (Nesting.mk.inj h).2).1).elim
    | cons l ls =>
      simp only [Nesting.step] at h
      split at h
      · rename_i hb
        obtain ⟨-, h⟩ := Nesting.mk.inj h
        obtain rfl := (List.cons.inj h).1
        obtain ⟨p, head, before⟩ := l
        cases head with
        | inl name => rcases hc with hc | hc <;> cases hc
        | inr b' =>
          cases hb
          cases b' with
          | curly => exact .inl rfl
          | _ => rcases hc with hc | hc <;> cases hc
      · cases (Nesting.mk.inj h).1

end Standing

/-- The tokens leave no level open, and the last of them ends a rule. -/
def Shut (s : Text) : Prop := ∃ c cs, nesting (lexemes s) = ⟨[], c :: cs⟩ ∧ c.Ends

def Nesting.isShut : Nesting → Bool
  | ⟨[], c :: _⟩ => c.isCurly || c.isMark ";"
  | _ => false

theorem shut_iff {s : Text} : Shut s ↔ (nesting (lexemes s)).isShut = true := by
  constructor
  · rintro ⟨c, cs, hn, hc⟩
    simpa [hn, Nesting.isShut, Component.Ends] using hc
  · intro h
    match hn : nesting (lexemes s) with
    | ⟨[], c :: cs⟩ => exact ⟨c, cs, hn, by simpa [hn, Nesting.isShut, Component.Ends] using h⟩
    | ⟨[], []⟩ => simp [hn, Nesting.isShut] at h
    | ⟨_ :: _, _⟩ => simp [hn, Nesting.isShut] at h

instance : DecidablePred Shut := fun _ => decidable_of_iff _ shut_iff.symm

theorem Shut.lexemes_append {s : Text} (h : Shut s) (v : Text) : lexemes (s ++ v) = lexemes s ++ lexemes v := by
  obtain ⟨c, cs, hn, hc⟩ := h
  obtain ⟨l, hl, he⟩ := getLast?_of_nesting hn hc
  exact (lexemes_append_of_getLast? hl he).2 v

theorem Shut.exists_concat {s : Text} (h : Shut s) : ∃ b c, s = b ++ [c] ∧ IsHard c := by
  obtain ⟨c, cs, hn, hc⟩ := h
  obtain ⟨l, hl, he⟩ := getLast?_of_nesting hn hc
  exact (lexemes_append_of_getLast? hl he).1

theorem Shut.values_append {s : Text} (h : Shut s) (v : Text) :
    values (lexemes (s ++ v)) = values (lexemes s) ++ values (lexemes v) := by
  have ha := h.lexemes_append v
  obtain ⟨c, cs, hn, -⟩ := h
  rw [ha, Css.values_append hn, values_of_nesting hn]

/-- The last component of a shut text ends a rule. -/
theorem Shut.exists_values {s : Text} (h : Shut s) : ∃ cs c, values (lexemes s) = cs ++ [c] ∧ c.Ends := by
  obtain ⟨c, cs, hn, hc⟩ := h
  exact ⟨cs.reverse, c, by rw [values_of_nesting hn, List.reverse_cons], hc⟩

section TooLong

theorem findSome?_core (ls : List Lexeme) : (core ls).findSome? Lexeme.tooLong? = ls.findSome? Lexeme.tooLong? := by
  induction ls with
  | nil => rfl
  | cons l ls ih =>
    by_cases hl : l.isTrivia = true
    · have hn : l.tooLong? = none := by
        cases l with
        | leaf t => cases t <;> first | rfl | cases hl
        | _ => rfl
      rw [core_cons hl, ih, List.findSome?_cons, hn]
    · rw [core, List.dropWhile_cons_of_neg hl]

theorem Spacing.tooLong?_append {gap : Text} (h : Spacing gap) (v : Text) : tooLong? (gap ++ v) = tooLong? v := by
  rw [tooLong?, ← findSome?_core, h.core_lexemes, findSome?_core, tooLong?]

theorem Shut.tooLong?_append {s : Text} (h : Shut s) (v : Text) : tooLong? (s ++ v) = (tooLong? s).or (tooLong? v) := by
  rw [tooLong?, h.lexemes_append, List.findSome?_append]
  rfl

end TooLong

/-- A sheet that leaves nothing open: spacing apart, it ends with the brace of a block or with a semicolon, outside
all levels. -/
def Complete (css : Text) : Prop :=
  ∃ body tail, preprocess css = body ++ tail ∧ (body = [] ∨ Shut body) ∧ Spacing tail

namespace Complete

variable {css gap : Text}

theorem tooLong?_append (h : Complete css) (hg : Spacing gap) (v : Text) :
    tooLong? (preprocess css ++ (gap ++ v)) = (tooLong? (preprocess css)).or (tooLong? v) := by
  obtain ⟨body, tail, he, hb, ht⟩ := h
  have htail : tooLong? tail = none := by simpa using ht.tooLong?_append []
  rw [he, List.append_assoc, ← List.append_assoc tail]
  rcases hb with rfl | hb
  · simp only [List.nil_append, (ht.append hg).tooLong?_append, htail, Option.none_or]
  · rw [hb.tooLong?_append, hb.tooLong?_append, (ht.append hg).tooLong?_append, htail, Option.or_none]

/-- Nothing stands behind a brace or a semicolon at the end. -/
theorem shut {u : Text} {c : CodePoint} (h : Complete css) (he : preprocess css = u ++ [c]) (hc : IsHard c) :
    Shut (preprocess css) := by
  obtain ⟨body, tail, hp, hb, ht⟩ := h
  rcases List.eq_nil_or_concat tail with rfl | ⟨x, d, rfl⟩
  · rw [List.append_nil] at hp
    rcases hb with rfl | hb
    · simp [hp] at he
    · rwa [hp]
  · have hd : d = c := by
      have hl := congrArg List.getLast? (hp.symm.trans he)
      simpa [List.getLast?_append] using hl
    exact absurd (hd ▸ hc) (ht.getLast?_not_isHard d (by simp))

end Complete

end StylePrune.Css
