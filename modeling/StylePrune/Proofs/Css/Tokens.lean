import StylePrune.Proofs.Css.Scanning

/-!
Tokens at the end of a text. A token ends inside the text and is the same whatever brace or semicolon
follows, or the end cuts it off and a brace behind the text becomes part of it.
-/

set_option autoImplicit false

namespace StylePrune.Css

/-- What a leaf is to the grammar of rules. -/
inductive Role where
  | trivia | atKeyword | semicolon | other
  deriving DecidableEq, Repr

def Leaf.role : Leaf → Role
  | .whitespace _ | .comment _ => .trivia
  | .atKeyword _ => .atKeyword
  | .literal s => if s = [.char ';'] then .semicolon else .other
  | _ => .other

/-- A string or a URL that the end of the text cuts off. -/
inductive CutOff where
  | string (value : Text)
  | url (value : Text)

namespace CutOff

def leaf : CutOff → Leaf
  | string v => .string v false
  | url v => .url v false

def error : CutOff → TokenError
  | string _ => .stringAtEnd
  | url _ => .urlAtEnd

def lexemes (x : CutOff) : List Lexeme := [.leaf x.leaf, .leaf (.error x.error)]

theorem role_leaf (x : CutOff) : x.leaf.role = .other := by cases x <;> rfl

end CutOff

/-- What the reader of a token that starts at `c` can give. A literal is the text it was read from. -/
inductive Outcome (c : CodePoint) (s : Text) : List Lexeme × Text → Prop where
  | leaf (t : Leaf) (r : Text) : (∀ u, t = .literal u → c :: s = u ++ r) → Outcome c s ([.leaf t], r)
  | cut (x : CutOff) : Outcome c s (x.lexemes, [])
  | function (name r : Text) : Outcome c s ([.function name], r)
  | opening (b : Bracket) : c = b.opener → Outcome c s ([.opening b], s)
  | closing (b : Bracket) : c = b.closer → Outcome c s ([.closing b], s)

theorem Outcome.eq_nil {c : CodePoint} {s v : Text} {ls : List Lexeme} (h : Outcome c s (ls, v)) (hl : ls.length ≠ 1) :
    v = [] := by
  cases h <;> simp_all

theorem takeString_atEnd {q : CodePoint} {s x r : Text} (h : takeString q s = (x, .atEnd, r)) : r = [] := by
  fun_induction takeString q s generalizing x <;> simp_all

theorem takeUrl_atEnd {s x r : Text} (h : takeUrl s = (x, .atEnd, r)) : r = [] := by
  fun_induction takeUrl s generalizing x <;> simp_all

section

variable {c : CodePoint} {s t : Text}

theorem Outcome.other {t : Leaf} {r : Text} (h : ∀ u, t ≠ .literal u) : Outcome c s ([.leaf t], r) :=
  .leaf t r fun u hu => absurd hu (h u)

theorem Outcome.literal {u r : Text} (h : c :: s = u ++ r) : Outcome c s ([.leaf (.literal u)], r) := by
  refine .leaf _ r fun v hv => ?_
  rwa [← Leaf.literal.inj hv]

theorem outcome_readString (q : CodePoint) : Outcome c s (readString q t) := by
  unfold readString
  split
  · exact .other (by simp)
  · rename_i v r h
    rw [takeString_atEnd h]
    exact .cut (.string v)
  · exact .other (by simp)

theorem outcome_readIdentLike : Outcome c s (readIdentLike t) := by
  unfold readIdentLike
  simp only []
  split
  · split
    · unfold readUrl
      split
      · exact .other (by simp)
      · rename_i v r h
        rw [takeUrl_atEnd h]
        exact .cut (.url v)
      · exact .other (by simp)
    · exact .function _ _
  · exact .other (by simp)

theorem outcome_readComment : Outcome c s (readComment t) := by
  unfold readComment
  split <;> exact .other (by simp)

theorem outcome_readMark : Outcome c s (readMark c s) := by
  unfold readMark
  split
  · rename_i hc
    split
    · exact .other (by simp)
    · exact .literal (by rw [hc]; rfl)
  · split
    · rename_i hc
      have literal : Outcome c s ([.leaf (.literal "#")], s) := .literal (by rw [hc]; rfl)
      split
      · split
        · exact .other (by simp)
        · exact literal
      · split
        · exact .other (by simp)
        · exact literal
    · iterate 6
        split
        · first
          | exact .opening .curly ‹_›
          | exact .opening .square ‹_›
          | exact .opening .round ‹_›
          | exact .closing .curly ‹_›
          | exact .closing .square ‹_›
          | exact .closing .round ‹_›
      split
      · exact outcome_readString c
      · split
        · exact outcome_readComment
        · split
          · exact .literal (Text.eq_append_of_after? ‹_›)
          · split
            · exact .literal (Text.eq_append_of_after? ‹_›)
            · split
              · split
                · exact .literal rfl
                · exact .literal rfl
              · exact .literal rfl

end

theorem outcome_readToken (c : CodePoint) (s : Text) : Outcome c s (readToken c s) := by
  unfold readToken
  split
  · exact .other (by simp)
  · split
    · exact .other (by simp)
    · split
      · exact .literal (Text.eq_append_of_after? ‹_›)
      · split
        · exact outcome_readIdentLike
        · split
          · unfold readNumeric
            split
            · exact .other (by simp)
            · split <;> exact .other (by simp)
          · exact outcome_readMark

/-- Closing braces. -/
def braces (n : Nat) : Text := List.replicate n '\x7d'

theorem stops_braces (n : Nat) : Stops (braces n) := by
  cases n with
  | zero => exact stops_nil
  | succ n => exact stops_cons (.inr (.inl rfl)) _

/-- Tokens of one leaf with a role, which the end of the text may have cut off. -/
inductive Plays : Role → List Lexeme → Prop where
  | whole (t : Leaf) : Plays t.role [.leaf t]
  | cut (x : CutOff) : Plays .other x.lexemes

def Lexeme.role? : Lexeme → Option Role
  | .leaf t => some t.role
  | _ => none

theorem Plays.unique {r q : Role} {ls : List Lexeme} (h : Plays r ls) (h' : Plays q ls) : r = q := by
  have head {r : Role} (h : Plays r ls) : ls.head?.bind Lexeme.role? = some r := by
    cases h with
    | whole t => rfl
    | cut x => exact congrArg some x.role_leaf
  exact Option.some.inj ((head h).symm.trans (head h'))

/-- No mark of an HTML comment, and no number that is too long. -/
def Lexeme.Fine (l : Lexeme) : Prop :=
  l.tooLong? = none ∧ l ≠ .leaf (.literal "<!--") ∧ l ≠ .leaf (.literal "-->")

/-- Tokens that may take each other's place at the end of a text. -/
structure Kin (ls ms : List Lexeme) : Prop where
  role : ∃ r, Plays r ls ∧ Plays r ms
  fine : (∀ l ∈ ls, l.Fine) → ∀ l ∈ ms, l.Fine

theorem Kin.leaf {t u : Leaf} (hr : t.role = u.role) (hf : (Lexeme.leaf t).Fine → (Lexeme.leaf u).Fine) :
    Kin [.leaf t] [.leaf u] :=
  ⟨⟨u.role, hr ▸ .whole t, .whole u⟩, by simpa using hf⟩

/-- Reading tokens stops inside the text, or takes up what follows and leaves the text without a rest. -/
def Settles (R : Text → List Lexeme × Text) (s : Text) : Prop :=
  Steady R s ∨ RunsOn R s ∧ Kin (R s).1 (R (s ++ braces 1)).1

section

variable {v w : Text}

theorem RunsOn.nil {α : Type} {R : Text → α × Text} {s : Text} (h : RunsOn R s) : (R s).2 = [] := by
  simpa using h [] stops_nil

theorem RunsOn.brace {α : Type} {R : Text → α × Text} {s : Text} (h : RunsOn R s) :
    (R (s ++ braces 1)).2 = [] := by
  simpa [braces] using h (braces 1) (stops_braces 1)

theorem Kin.of_plays {r : Role} {ls ms : List Lexeme} (hl : Plays r ls) (hm : Plays r ms)
    (hf : ∀ l ∈ ms, l.Fine) : Kin ls ms :=
  ⟨⟨r, hl, hm⟩, fun _ => hf⟩

theorem readUrl_kin (s t : Text) : Kin (readUrl s).1 (readUrl t).1 := by
  have plays (s : Text) : Plays .other (readUrl s).1 := by
    unfold readUrl
    split
    · exact .whole (.url _ true)
    · exact .cut (.url _)
    · exact .whole (.error .badUrl)
  refine .of_plays (plays s) (plays t) ?_
  unfold readUrl
  split <;> simp [Lexeme.Fine, Lexeme.tooLong?]

theorem readString_kin (q : CodePoint) (s t : Text) : Kin (readString q s).1 (readString q t).1 := by
  have plays (s : Text) : Plays .other (readString q s).1 := by
    unfold readString
    split
    · exact .whole (.string _ true)
    · exact .cut (.string _)
    · exact .whole (.error .badString)
  refine .of_plays (plays s) (plays t) ?_
  unfold readString
  split <;> simp [Lexeme.Fine, Lexeme.tooLong?]

theorem readUrl_settles (s : Text) : Settles readUrl s := by
  have rest (s : Text) : (readUrl s).2 = (takeUrl s).2.2 := by
    unfold readUrl
    split <;> simp_all
  refine (takeUrl_steady_or s).imp (fun h v hv => ?_) fun h => ⟨fun v hv => ?_, readUrl_kin _ _⟩
  · unfold readUrl
    rw [h v hv]
    rcases takeUrl s with ⟨x, _ | _ | _, r⟩ <;> rfl
  · rw [rest]
    exact h v hv

theorem readString_settles {q : CodePoint} (hq : ¬ IsHard q) (hqe : q ≠ '\\') (s : Text) :
    Settles (readString q) s := by
  have rest (s : Text) : (readString q s).2 = (takeString q s).2.2 := by
    unfold readString
    split <;> simp_all
  refine (takeString_steady_or hq hqe s).imp (fun h v hv => ?_) fun h => ⟨fun v hv => ?_, readString_kin q _ _⟩
  · unfold readString
    rw [h v hv]
    rcases takeString q s with ⟨x, _ | _ | _, r⟩ <;> rfl
  · rw [rest]
    exact h v hv

theorem readComment_settles (s : Text) : Settles readComment s := by
  have hq : ∀ c ∈ Text.ofString "*/", ¬ IsHard c := by simp [Text.ofString, IsHard]
  have plays (s : Text) : Plays .trivia (readComment s).1 := by
    unfold readComment
    split <;> exact .whole (.comment _)
  have fine (s : Text) : ∀ l ∈ (readComment s).1, l.Fine := by
    unfold readComment
    split <;> simp [Lexeme.Fine, Lexeme.tooLong?]
  cases hs : Text.cutAt? "*/" s with
  | some x =>
    refine .inl fun v hv => ?_
    unfold readComment
    rw [cutAt?_append_of_stops hq hv hs, hs]
  | none =>
    refine .inr ⟨fun v hv => ?_, .of_plays (plays _) (plays _) (fine _)⟩
    unfold readComment
    split
    · rename_i h
      exact cutAt?_commentEnd_length hv hs h
    · simp

theorem readIdentLike_of_takeName_nil {s : Text} (h : (takeName s).2 = []) :
    readIdentLike s = ([.leaf (.ident (takeName s).1)], []) := by
  simp [readIdentLike, h, Text.after?]

theorem readIdentLike_length_takeName (s : Text) : (readIdentLike s).2.length ≤ (takeName s).2.length := by
  simp only [readIdentLike]
  split
  · rename_i r hr
    have hr := after?_length hr
    have hi := length_dropWhile_le isSpace r
    have hu := readUrl_length (r.dropWhile isSpace)
    split
    · omega
    · simp only []; omega
  · exact Nat.le_refl _

theorem readIdentLike_settles (s : Text) : Settles readIdentLike s := by
  have paren : ∀ c ∈ ([.char '('] : Text), ¬ IsHard c := by simp [IsHard]
  have quote₁ : ¬ IsHard '"' := by simp [IsHard]
  have quote₂ : ¬ IsHard '\'' := by simp [IsHard]
  rcases takeName_steady_or s with h | h
  · cases hr : Text.after? ['('] (takeName s).2 with
    | none =>
      refine .inl fun v hv => ?_
      simp [readIdentLike, h v hv, after?_append_of_stops paren hv, hr]
    | some r =>
      have step (v : Text) (hv : Stops v) : readIdentLike (s ++ v) =
          if Text.asciiLower (takeName s).1 = "url" ∧ (r.dropWhile isSpace).head? ≠ some (.char '"') ∧
            (r.dropWhile isSpace).head? ≠ some (.char '\'') then readUrl (r.dropWhile isSpace ++ v)
          else ([.function (takeName s).1], r ++ v) := by
        simp only [readIdentLike, h v hv, after?_append_of_stops paren hv, hr, Option.map_some,
          dropWhile_append_of_stops avoids_isSpace hv, ne_eq, head?_append_of_stops hv quote₁,
          head?_append_of_stops hv quote₂]
      have step' := by simpa only [List.append_nil] using step [] stops_nil
      split at step'
      · rename_i hu
        refine (readUrl_settles (r.dropWhile isSpace)).imp (fun h v hv => ?_) fun h => ⟨fun v hv => ?_, ?_⟩
        · rw [step v hv, if_pos hu, h v hv, step']
        · rw [step v hv, if_pos hu]
          exact h.1 v hv
        · rw [step _ (stops_braces 1), if_pos hu, step']
          exact h.2
      · rename_i hu
        refine .inl fun v hv => ?_
        rw [step v hv, if_neg hu, step']
  · refine .inr ⟨fun v hv => Nat.le_trans (readIdentLike_length_takeName _) (h v hv), ?_⟩
    rw [readIdentLike_of_takeName_nil h.nil, readIdentLike_of_takeName_nil h.brace]
    exact .leaf rfl fun _ => by simp [Lexeme.Fine, Lexeme.tooLong?]

theorem readNumeric_settles (repr s : Text) : Settles (readNumeric repr) s := by
  by_cases hs : startsIdent s = true
  · have step (v : Text) (hv : Stops v) : readNumeric repr (s ++ v) =
        ([.leaf (.dimension repr (takeName (s ++ v)).1)], (takeName (s ++ v)).2) := by
      simp only [readNumeric, startsIdent_append hv, hs, if_true]
    have step' := by simpa only [List.append_nil] using step [] stops_nil
    refine (takeName_steady_or s).imp (fun h v hv => ?_) fun h => ⟨fun v hv => ?_, ?_⟩
    · rw [step v hv, step', h v hv]
    · rw [step v hv]
      exact h v hv
    · rw [step', step _ (stops_braces 1)]
      exact .leaf rfl fun h => by simpa [Lexeme.Fine, Lexeme.tooLong?] using h
  · have hs : startsIdent s = false := by simpa using hs
    refine .inl fun v hv => ?_
    simp only [readNumeric, startsIdent_append hv, hs, Bool.false_eq_true, if_false]
    cases s with
    | nil =>
      cases v with
      | nil => rfl
      | cons c v =>
        have hc : c ≠ '%' := (hv c rfl).ne (by decide)
        simp [hc]
    | cons c s => by_cases hc : c = '%' <;> simp [hc]

theorem Steady.settles {R : Text → List Lexeme × Text} {s : Text} (h : Steady R s) : Settles R s := .inl h

theorem Settles.congr {R S : Text → List Lexeme × Text} {s t : Text} (h : Settles S t)
    (he : ∀ v, Stops v → R (s ++ v) = S (t ++ v)) : Settles R s := by
  have he' := by simpa only [List.append_nil] using he [] stops_nil
  refine h.imp (fun h v hv => ?_) fun h => ⟨fun v hv => ?_, ?_⟩
  · rw [he v hv, he', h v hv]
  · rw [he v hv]
    exact h.1 v hv
  · rw [he', he _ (stops_braces 1)]
    exact h.2

/-- A name as the value of a leaf. -/
theorem settles_of_takeName (leaf : Text → Leaf) {r : Role} (hr : ∀ n, (leaf n).role = r)
    (hf : ∀ n, (Lexeme.leaf (leaf n)).Fine) (s : Text) :
    Settles (fun s => ([.leaf (leaf (takeName s).1)], (takeName s).2)) s := by
  refine (takeName_steady_or s).imp (fun h v hv => ?_) fun h => ⟨h, ?_⟩
  · simp only [h v hv]
  · exact .leaf ((hr _).trans (hr _).symm) fun _ => hf _

/-- After a number sign, a name follows. -/
def startsHash (s : Text) : Bool := s.head?.any isNameChar || startsEscape s

theorem startsHash_append (hv : Stops v) (s : Text) : startsHash (s ++ v) = startsHash s := by
  unfold startsHash
  rw [startsEscape_append hv]
  cases s with
  | nil =>
    cases v with
    | nil => rfl
    | cons c v => simp [avoids_isNameChar c (hv c rfl)]
  | cons c s => rfl

theorem readMark_hash (s : Text) :
    readMark '#' s = if startsHash s then ([.leaf (.hash (takeName s).1 (startsIdent s))], (takeName s).2)
      else ([.leaf (.literal "#")], s) := by
  cases s <;> rfl

/-- A single character, or a matcher before an equals sign. -/
def readLiteral (c : CodePoint) (s : Text) : List Lexeme × Text :=
  match s with
  | '=' :: r => if isMatcher c then ([.leaf (.literal [c, '='])], r) else ([.leaf (.literal [c])], s)
  | _ => ([.leaf (.literal [c])], s)

theorem readLiteral_steady (c : CodePoint) (s : Text) : Steady (readLiteral c) s := by
  intro v hv
  cases s with
  | nil =>
    cases v with
    | nil => rfl
    | cons d v =>
      have hd : d ≠ '=' := (hv d rfl).ne (by decide)
      simp [readLiteral, hd]
  | cons d s =>
    by_cases hd : d = '='
    · subst hd
      simp only [List.cons_append, readLiteral]
      split <;> rfl
    · simp [readLiteral, hd]

/-- A character that no name, bracket or string starts. -/
def IsLiteralChar (c : CodePoint) : Prop :=
  c ≠ '@' ∧ c ≠ '#' ∧ (∀ b : Bracket, c ≠ b.opener ∧ c ≠ b.closer) ∧ c ≠ '"' ∧ c ≠ '\''

theorem readMark_literal {c : CodePoint} (hc : IsLiteralChar c) (s : Text) :
    readMark c s = match Text.after? "/*" (c :: s) with
      | some r => readComment r
      | none => match Text.after? "<!--" (c :: s) with
        | some r => ([.leaf (.literal "<!--")], r)
        | none => match Text.after? "||" (c :: s) with
          | some r => ([.leaf (.literal "||")], r)
          | none => readLiteral c s := by
  obtain ⟨h₁, h₂, hb, h₃, h₄⟩ := hc
  have hc := hb .curly
  have hs := hb .square
  have hr := hb .round
  simp only [Bracket.opener, Bracket.closer] at hc hs hr
  simp only [readMark, h₁, h₂, hc, hs, hr, h₃, h₄, if_false, or_self]
  rfl

theorem readMark_settles (c : CodePoint) (s : Text) : Settles (readMark c) s := by
  by_cases hat : c = '@'
  · subst hat
    by_cases hs : startsIdent s = true
    · refine (settles_of_takeName .atKeyword (fun _ => rfl)
        (fun _ => by simp [Lexeme.Fine, Lexeme.tooLong?]) s).congr fun v hv => ?_
      simp [readMark, startsIdent_append hv, hs]
    · exact .inl fun v hv => by simp [readMark, startsIdent_append hv, hs]
  by_cases hhash : c = '#'
  · subst hhash
    by_cases hs : startsHash s = true
    · refine (settles_of_takeName (.hash · (startsIdent s)) (fun _ => rfl)
        (fun _ => by simp [Lexeme.Fine, Lexeme.tooLong?]) s).congr fun v hv => ?_
      simp [readMark_hash, startsHash_append hv, startsIdent_append hv, hs]
    · exact .inl fun v hv => by simp [readMark_hash, startsHash_append hv, hs]
  by_cases hb : ∃ b : Bracket, c = b.opener ∨ c = b.closer
  · obtain ⟨b, rfl | rfl⟩ := hb <;> cases b <;> exact .inl fun v hv => rfl
  simp only [not_exists, not_or] at hb
  by_cases hq : c = '"' ∨ c = '\''
  · have hq' : ¬ IsHard c ∧ c ≠ '\\' := by
      rcases hq with rfl | rfl <;> simp [IsHard]
    refine (readString_settles hq'.1 hq'.2 s).congr fun v hv => ?_
    rcases hq with rfl | rfl <;> rfl
  have hc : IsLiteralChar c := ⟨hat, hhash, hb, not_or.1 hq⟩
  have mark {q : Text} (hq : ∀ c ∈ q, ¬ IsHard c) (v : Text) (hv : Stops v) :
      Text.after? q (c :: (s ++ v)) = (Text.after? q (c :: s)).map (· ++ v) :=
    after?_append_of_stops hq hv (c :: s)
  have h₁ := mark (q := "/*") (by simp [Text.ofString, IsHard])
  have h₂ := mark (q := "<!--") (by simp [Text.ofString, IsHard])
  have h₃ := mark (q := "||") (by simp [Text.ofString, IsHard])
  cases hr₁ : Text.after? "/*" (c :: s) with
  | some r =>
    refine (readComment_settles r).congr fun v hv => ?_
    simp only [readMark_literal hc, h₁ v hv, hr₁, Option.map_some]
  | none =>
    refine .inl fun v hv => ?_
    simp only [readMark_literal hc, h₁ v hv, h₂ v hv, h₃ v hv, hr₁, Option.map_none]
    cases Text.after? "<!--" (c :: s) with
    | some r => rfl
    | none =>
      cases Text.after? "||" (c :: s) with
      | some r => rfl
      | none => exact readLiteral_steady c s v hv

theorem rangeStart?_append (hv : Stops v) (c : CodePoint) (s : Text) :
    rangeStart? c (s ++ v) = (rangeStart? c s).map (· ++ v) := by
  rcases s with _ | ⟨a, _ | ⟨d, s⟩⟩
  · cases v with
    | nil => rfl
    | cons d v =>
      have hd : d ≠ '+' := (hv d rfl).ne (by decide)
      simp [rangeStart?, hd]
  · cases v with
    | nil => by_cases ha : a = '+' <;> simp [rangeStart?, ha]
    | cons d v =>
      have hd : d ≠ '?' := (hv d rfl).ne (by decide)
      have hx := avoids_isHexDigit d (hv d rfl)
      by_cases ha : a = '+' <;> simp [rangeStart?, ha, hd, hx]
  · by_cases ha : a = '+'
    · subst ha
      simp only [List.cons_append, rangeStart?]
      split <;> rfl
    · simp [rangeStart?, ha]

/-- A token ends inside the text, or the end of the text cuts it off: then a brace put behind the text
becomes part of a token of its kind. -/
theorem readToken_settles (c : CodePoint) (s : Text) : Settles (readToken c) s := by
  by_cases hsp : isSpace c = true
  · refine .inl fun v hv => ?_
    simp [readToken, hsp, takeWhile_append_of_stops avoids_isSpace hv, dropWhile_append_of_stops avoids_isSpace hv]
  have hcdc : ∀ c ∈ Text.ofString "-->", ¬ IsHard c := by simp [Text.ofString, IsHard]
  have hr (v : Text) (hv : Stops v) := rangeStart?_append hv c s
  have hd (v : Text) (hv : Stops v) := after?_append_of_stops hcdc hv (c :: s)
  have hi (v : Text) (hv : Stops v) := startsIdent_append hv (c :: s)
  have hn (v : Text) (hv : Stops v) := takeNumber?_append_of_stops hv (c :: s)
  simp only [List.cons_append] at hd hi hn
  cases hr' : rangeStart? c s with
  | some r =>
    refine .inl fun v hv => ?_
    simp [readToken, hsp, hr v hv, hr', takeRange_append_of_stops hv]
  | none =>
  cases hd' : Text.after? "-->" (c :: s) with
  | some r =>
    refine .inl fun v hv => ?_
    simp [readToken, hsp, hr v hv, hr', hd v hv, hd']
  | none =>
  by_cases hi' : startsIdent (c :: s) = true
  · refine (readIdentLike_settles (c :: s)).congr fun v hv => ?_
    simp [readToken, hsp, hr v hv, hr', hd v hv, hd', hi v hv, hi']
  cases hn' : takeNumber? (c :: s) with
  | some x =>
    refine (readNumeric_settles x.1 x.2).congr fun v hv => ?_
    simp [readToken, hsp, hr v hv, hr', hd v hv, hd', hi v hv, hi', hn v hv, hn']
  | none =>
    refine (readMark_settles c s).congr fun v hv => ?_
    simp [readToken, hsp, hr v hv, hr', hd v hv, hd', hi v hv, hi', hn v hv, hn']

end

theorem readString_suffix (q : CodePoint) (s : Text) : (readString q s).2 <:+ s := by
  have h := takeString_suffix q s
  unfold readString
  split <;> simp_all

theorem readComment_suffix (s : Text) : (readComment s).2 <:+ s := by
  unfold readComment
  split
  · rename_i h
    exact ⟨_, (Text.eq_append_of_cutAt? h).symm⟩
  · exact List.nil_suffix

theorem readIdentLike_suffix (s : Text) : (readIdentLike s).2 <:+ s := by
  simp only [readIdentLike]
  split
  · rename_i r hr
    have hr := (after?_suffix hr).trans (takeName_suffix s)
    split
    · have hu := (takeUrl_suffix (r.dropWhile isSpace)).trans (List.dropWhile_suffix isSpace)
      unfold readUrl
      split <;> simp_all <;> exact hu.trans hr
    · exact hr
  · exact takeName_suffix s

theorem readNumeric_suffix (repr s : Text) : (readNumeric repr s).2 <:+ s := by
  unfold readNumeric
  split
  · exact takeName_suffix s
  · split
    · exact List.suffix_cons _ _
    · exact List.suffix_refl _

theorem readMark_suffix (c : CodePoint) (s : Text) : (readMark c s).2 <:+ c :: s := by
  have hs := List.suffix_cons c s
  have hn := (takeName_suffix s).trans hs
  unfold readMark
  repeat' split
  all_goals first
    | exact hn
    | exact hs
    | exact (readString_suffix c s).trans hs
    | (rename_i h; exact after?_suffix h)
    | (rename_i h; exact (readComment_suffix _).trans (after?_suffix h))
    | exact (List.suffix_cons _ _).trans hs

theorem readToken_suffix (c : CodePoint) (s : Text) : (readToken c s).2 <:+ s := by
  have hs : (readToken c s).2 <:+ c :: s := by
    unfold readToken
    split
    · exact (List.dropWhile_suffix isSpace).trans (List.suffix_cons c s)
    · split
      · rename_i r h
        have hr : r <:+ s := by
          unfold rangeStart? at h
          split at h
          · split at h
            · obtain rfl := Option.some.inj h
              exact List.suffix_cons _ _
            · cases h
          · cases h
        exact ((takeRange_suffix r).trans hr).trans (List.suffix_cons c s)
      · split
        · rename_i h
          exact after?_suffix h
        · split
          · exact readIdentLike_suffix _
          · split
            · rename_i h
              exact (readNumeric_suffix _ _).trans ⟨_, (takeNumber?_append h).1⟩
            · exact readMark_suffix c s
  rcases List.suffix_cons_iff.1 hs with h | h
  · have hl := readToken_length c s
    rw [h, List.length_cons] at hl
    omega
  · exact h

theorem takeNumber?_eq_none {c : CodePoint} (h₁ : c ≠ '+') (h₂ : c ≠ '-') (h₃ : c ≠ '.') (hd : c.isDigit = false)
    (s : Text) : takeNumber? (c :: s) = none := by
  have hs : takeSign (c :: s) = ([], c :: s) := by simp [takeSign, h₁, h₂]
  have hp : Text.after? ['.'] (c :: s) = none := by simp [Text.after?, Ne.symm h₃]
  simp [takeNumber?, hs, takeDecimal?, takeDigits, hd, hp]

section PlainStart

variable {c : CodePoint}

/-- A character that starts neither spacing nor a name, a number or an escape. -/
def IsPlainStart (c : CodePoint) : Prop :=
  isSpace c = false ∧ isNameStart c = false ∧ c.isDigit = false ∧ c ≠ '-' ∧ c ≠ '\\' ∧ c ≠ '+' ∧ c ≠ '.'

theorem rangeStart?_eq_none (h : isNameStart c = false) (s : Text) : rangeStart? c s = none := by
  have hu : c ≠ 'u' ∧ c ≠ 'U' := by constructor <;> rintro rfl <;> exact absurd h (by decide)
  unfold rangeStart?
  split
  · simp [hu]
  · rfl

theorem after?_arrow_of_ne (h : c ≠ '-') (s : Text) : Text.after? "-->" (c :: s) = none := by
  simp [Text.after?, Text.ofString, Ne.symm h]

theorem readToken_of_not {s : Text} (hs : isSpace c = false) (hr : rangeStart? c s = none) (hm : Text.after? "-->" (c :: s) = none)
    (hi : startsIdent (c :: s) = false) (hn : takeNumber? (c :: s) = none) : readToken c s = readMark c s := by
  simp [readToken, hs, hr, hm, hi, hn]

theorem readToken_plain (h : IsPlainStart c) (s : Text) : readToken c s = readMark c s := by
  obtain ⟨hs, hstart, hdigit, hdash, he, hplus, hpoint⟩ := h
  refine readToken_of_not hs (rangeStart?_eq_none hstart s) (after?_arrow_of_ne hdash s) ?_
    (takeNumber?_eq_none hplus hdash hpoint hdigit s)
  rw [startsIdent_of_ne hdash, hstart, startsEscape_of_ne he]
  rfl

end PlainStart

/-- A bracket or a semicolon is a token of its own. -/
theorem readToken_mark {c : CodePoint} (hc : (∃ b : Bracket, c = b.opener ∨ c = b.closer) ∨ c = ';') (s : Text) :
    readToken c s = readMark c s := by
  refine readToken_plain ?_ s
  unfold IsPlainStart
  rcases hc with ⟨b, rfl | rfl⟩ | rfl
  · cases b <;> decide
  · cases b <;> decide
  · decide

theorem readToken_closer (b : Bracket) (s : Text) : readToken b.closer s = ([.closing b], s) := by
  rw [readToken_mark (.inl ⟨b, .inr rfl⟩)]
  cases b <;> rfl

theorem readToken_opener (b : Bracket) (s : Text) : readToken b.opener s = ([.opening b], s) := by
  rw [readToken_mark (.inl ⟨b, .inl rfl⟩)]
  cases b <;> rfl

theorem readToken_semicolon (s : Text) : readToken ';' s = ([.leaf (.literal [.char ';'])], s) := by
  have hc : IsLiteralChar ';' := ⟨by decide, by decide, fun b => by cases b <;> decide, by decide, by decide⟩
  have hl : readLiteral ';' s = ([.leaf (.literal [.char ';'])], s) := by
    unfold readLiteral
    split
    · exact if_neg (by decide)
    · rfl
  rw [readToken_mark (.inr rfl), readMark_literal hc]
  simpa [Text.after?, Text.ofString] using hl

end StylePrune.Css
