import StylePrune.Css.Token

/-!
Reading a sheet as tokens with their positions. Every reader returns what it read and the rest of
the text, and the rest is never longer than the text, which bounds the loops.
-/

set_option autoImplicit false

namespace StylePrune.Css

/-- A backslash starts an escape unless a line feed follows; at the end of the text it does too. -/
def startsEscape : Text → Bool
  | '\\' :: '\n' :: _ => false
  | '\\' :: _ => true
  | _ => false

def startsIdent : Text → Bool
  | '-' :: s => (match s with | c :: _ => isNameStart c || c == '-' | [] => false) || startsEscape s
  | c :: s => isNameStart c || startsEscape (c :: s)
  | [] => false

/-- At most `n` characters of a class. -/
def takeUpTo (p : CodePoint → Bool) : Nat → Text → Text × Text
  | n + 1, c :: s => if p c then let (a, r) := takeUpTo p n s; (c :: a, r) else ([], c :: s)
  | _, s => ([], s)

theorem takeUpTo_append (p : CodePoint → Bool) (n : Nat) (s : Text) :
    (takeUpTo p n s).1 ++ (takeUpTo p n s).2 = s := by
  fun_induction takeUpTo p n s <;> simp_all

theorem takeUpTo_length (p : CodePoint → Bool) (n : Nat) (s : Text) :
    (takeUpTo p n s).2.length ≤ s.length := by
  have h := congrArg List.length (takeUpTo_append p n s)
  simp only [List.length_append] at h
  omega

/-- What stands after a backslash: up to six hexadecimal digits and one space, or any character. -/
def takeEscape (s : Text) : CodePoint × Text :=
  match takeUpTo Text.isHexDigit 6 s with
  | ([], _) => match s with
    | [] => ('\uFFFD', [])
    | c :: r => (c, r)
  | (ds, r) =>
    let n := Text.digitsValue 16 ds
    (if n = 0 ∨ 0x10FFFF < n then '\uFFFD' else .ofNat n, (takeUpTo isSpace 1 r).2)

theorem takeEscape_length (s : Text) : (takeEscape s).2.length ≤ s.length := by
  have h := takeUpTo_length Text.isHexDigit 6 s
  unfold takeEscape
  split
  · split <;> simp
  · rename_i ds r hs
    simp only [hs] at h
    exact Nat.le_trans (takeUpTo_length ..) h

/-- The unescaped value of the name that a text starts with. -/
def takeName : Text → Text × Text
  | [] => ([], [])
  | c :: s =>
    if isNameChar c then
      let (v, r) := takeName s
      (c :: v, r)
    else if startsEscape (c :: s) then
      have := takeEscape_length s
      let (v, r) := takeName (takeEscape s).2
      ((takeEscape s).1 :: v, r)
    else ([], c :: s)
termination_by s => s.length

theorem takeName_length (s : Text) : (takeName s).2.length ≤ s.length := by
  fun_induction takeName s with
  | case1 => simp
  | case2 c s h v r e ih => simp only [e] at ih; simpa using Nat.le_succ_of_le ih
  | case3 c s h h' hl v r e ih =>
    simp only [e] at ih
    simpa using Nat.le_succ_of_le (Nat.le_trans ih hl)
  | case4 => simp

/-- How a quoted string ends. -/
inductive StringEnd where
  | closed | atEnd | broken
  deriving DecidableEq, Repr

/-- The inside of a string after its quote `q`. A raw line feed breaks the string and stays. -/
def takeString (q : CodePoint) : Text → Text × StringEnd × Text
  | [] => ([], .atEnd, [])
  | c :: s =>
    if c = q then ([], .closed, s)
    else if c = '\\' then
      match s with
      | [] => ([], .atEnd, [])
      | '\n' :: r => takeString q r
      | s =>
        have := takeEscape_length s
        let (v, e, r) := takeString q (takeEscape s).2
        ((takeEscape s).1 :: v, e, r)
    else if c = '\n' then ([], .broken, c :: s)
    else
      let (v, e, r) := takeString q s
      (c :: v, e, r)
termination_by s => s.length

theorem takeString_length (q : CodePoint) (s : Text) : (takeString q s).2.2.length ≤ s.length := by
  fun_induction takeString q s <;> simp_all <;> omega

/-- A URL without quotes, after `url(`. -/
inductive UrlEnd where
  | closed | atEnd | bad
  deriving DecidableEq, Repr

/-- The rest after a URL that went wrong: past the next closing parenthesis without a backslash. -/
def skipBadUrl : Text → Text
  | [] => []
  | '\\' :: ')' :: s => skipBadUrl s
  | c :: s => if c = ')' then s else skipBadUrl s

theorem skipBadUrl_length (s : Text) : (skipBadUrl s).length ≤ s.length := by
  fun_induction skipBadUrl s <;> simp_all <;> omega

def isNonPrintable (c : CodePoint) : Bool :=
  let n := c.toNat
  n ≤ 8 || n == 0xB || (0xE ≤ n && n ≤ 0x1F) || n == 0x7F

def takeUrl : Text → Text × UrlEnd × Text
  | [] => ([], .atEnd, [])
  | c :: s =>
    if c = ')' then ([], .closed, s)
    else if isSpace c then
      match s.dropWhile isSpace with
      | [] => ([], .atEnd, [])
      | ')' :: r => ([], .closed, r)
      | r => ([], .bad, skipBadUrl r)
    else if startsEscape (c :: s) then
      have := takeEscape_length s
      let (v, e, r) := takeUrl (takeEscape s).2
      ((takeEscape s).1 :: v, e, r)
    else if c = '"' ∨ c = '\'' ∨ c = '(' ∨ isNonPrintable c then ([], .bad, skipBadUrl s)
    else
      let (v, e, r) := takeUrl s
      (c :: v, e, r)
termination_by s => s.length

theorem length_dropWhile_le (p : CodePoint → Bool) (s : Text) : (s.dropWhile p).length ≤ s.length := by
  induction s with
  | nil => simp
  | cons c s ih => simp only [List.dropWhile_cons]; split <;> simp <;> omega

theorem takeUrl_length (s : Text) : (takeUrl s).2.2.length ≤ s.length := by
  fun_induction takeUrl s with
  | case1 => simp
  | case2 => simp
  | case3 => simp
  | case4 c s _ _ r h =>
    have hl := length_dropWhile_le isSpace s
    simp only [h, List.length_cons] at hl ⊢
    omega
  | case5 c s _ _ =>
    have hl := length_dropWhile_le isSpace s
    have hs := skipBadUrl_length (s.dropWhile isSpace)
    simp only [List.length_cons]
    omega
  | case6 c s _ _ _ hl v e r h ih =>
    simp only [h] at ih
    simp only [List.length_cons]
    omega
  | case7 c s =>
    have hs := skipBadUrl_length s
    simp only [List.length_cons]
    omega
  | case8 c s _ _ _ _ v e r h ih =>
    simp only [h] at ih
    simp only [List.length_cons]
    omega

/-- Digits and what follows. -/
def takeDigits (s : Text) : Text × Text := (s.takeWhile CodePoint.isDigit, s.dropWhile CodePoint.isDigit)

/-- A sign that stands before something. -/
def takeSign : Text → Text × Text
  | '+' :: s => (['+'], s)
  | '-' :: s => (['-'], s)
  | s => ([], s)

/-- The exponent of a number, empty where there is none. -/
def takeExponent : Text → Text × Text
  | c :: s =>
    let ds := takeDigits (takeSign s).2
    if (c = 'e' ∨ c = 'E') ∧ ds.1 ≠ [] then (c :: (takeSign s).1 ++ ds.1, ds.2) else ([], c :: s)
  | [] => ([], [])

/-- Digits with an optional fraction; there is at least one digit after a point. -/
def takeDecimal? (s : Text) : Option (Text × Text) :=
  let whole := takeDigits s
  match Text.after? ['.'] whole.2 with
  | some r =>
    if (takeDigits r).1 ≠ [] then some (whole.1 ++ .char '.' :: (takeDigits r).1, (takeDigits r).2)
    else if whole.1 = [] then none else some whole
  | none => if whole.1 = [] then none else some whole

def takeNumber? (s : Text) : Option (Text × Text) :=
  (takeDecimal? (takeSign s).2).map fun d =>
    ((takeSign s).1 ++ d.1 ++ (takeExponent d.2).1, (takeExponent d.2).2)

theorem takeDigits_append (s : Text) : (takeDigits s).1 ++ (takeDigits s).2 = s :=
  List.takeWhile_append_dropWhile

theorem takeSign_append (s : Text) : (takeSign s).1 ++ (takeSign s).2 = s := by
  unfold takeSign; split <;> simp

theorem takeExponent_append (s : Text) : (takeExponent s).1 ++ (takeExponent s).2 = s := by
  cases s with
  | nil => rfl
  | cons c s =>
    have hd := takeDigits_append (takeSign s).2
    have hs := takeSign_append s
    simp only [takeExponent]
    split <;> simp [hd, hs]

theorem takeDecimal?_append {s a r : Text} (h : takeDecimal? s = some (a, r)) :
    a ++ r = s ∧ a ≠ [] := by
  have hd := takeDigits_append s
  simp only [takeDecimal?] at h
  split at h
  · rename_i r' hr
    have hd' := takeDigits_append r'
    have hr := Text.eq_append_of_after? hr
    split at h
    · obtain ⟨rfl, rfl⟩ := by simpa using h
      simp only [hr] at hd
      refine ⟨?_, by simp⟩
      rw [List.append_assoc, List.cons_append, hd']
      exact hd
    · split at h
      · simp at h
      · injection h with h; rw [h] at hd; exact ⟨hd, by simp_all⟩
  · split at h
    · simp at h
    · injection h with h; rw [h] at hd; exact ⟨hd, by simp_all⟩

theorem takeNumber?_append {s a r : Text} (h : takeNumber? s = some (a, r)) :
    a ++ r = s ∧ a ≠ [] := by
  obtain ⟨d, h', he⟩ := Option.map_eq_some_iff.1 h
  have h1 := takeDecimal?_append (a := d.1) (r := d.2) h'
  have h2 := takeExponent_append d.2
  have h3 := takeSign_append s
  obtain ⟨rfl, rfl⟩ := by simpa using he
  refine ⟨?_, by simp [h1.2]⟩
  rw [List.append_assoc, List.append_assoc, h2, h1.1, h3]

theorem takeNumber?_length {s a r : Text} (h : takeNumber? s = some (a, r)) : r.length < s.length := by
  have h' := congrArg List.length (takeNumber?_append h).1
  have := List.length_pos_iff.2 (takeNumber?_append h).2
  simp only [List.length_append] at h'
  omega

/-- The range after `U+`: six places of digits and question marks, or two ends joined by a dash. -/
def takeRange (s : Text) : Nat × Nat × Text :=
  let ds := takeUpTo Text.isHexDigit 6 s
  let qs := takeUpTo (· = .char '?') (6 - ds.1.length) ds.2
  let low := Text.digitsValue 16 ds.1
  if qs.1 ≠ [] then (low * Nat.pow 16 qs.1.length, (low + 1) * Nat.pow 16 qs.1.length - 1, qs.2)
  else match ds.2 with
    | '-' :: r =>
      let es := takeUpTo Text.isHexDigit 6 r
      if es.1 ≠ [] then (low, Text.digitsValue 16 es.1, es.2) else (low, low, ds.2)
    | _ => (low, low, ds.2)

theorem takeRange_length (s : Text) : (takeRange s).2.2.length ≤ s.length := by
  have h1 := takeUpTo_length Text.isHexDigit 6 s
  have h2 := takeUpTo_length (· = .char '?') (6 - (takeUpTo Text.isHexDigit 6 s).1.length)
    (takeUpTo Text.isHexDigit 6 s).2
  simp only [takeRange]
  split
  · exact Nat.le_trans h2 h1
  · split
    · rename_i r hr
      have h3 := takeUpTo_length Text.isHexDigit 6 r
      rw [hr, List.length_cons] at h1
      split
      · simp only []; omega
      · simpa [hr] using h1
    · exact h1

/-- Two-character literals that end in an equals sign. -/
def isMatcher (c : CodePoint) : Bool := c == '~' || c == '|' || c == '^' || c == '$' || c == '*'

def readUrl (s : Text) : List Lexeme × Text :=
  match takeUrl s with
  | (v, .closed, r) => ([.leaf (.url v true)], r)
  | (v, .atEnd, r) => ([.leaf (.url v false), .leaf (.error .urlAtEnd)], r)
  | (_, .bad, r) => ([.leaf (.error .badUrl)], r)

/-- A token that starts like an identifier: a name, a function, or a URL without quotes. -/
def readIdentLike (s : Text) : List Lexeme × Text :=
  let name := takeName s
  match Text.after? ['('] name.2 with
  | some r =>
    let inside := r.dropWhile isSpace
    if Text.asciiLower name.1 = "url" ∧ inside.head? ≠ some (.char '"') ∧ inside.head? ≠ some (.char '\'') then
      readUrl inside
    else ([.function name.1], r)
  | none => ([.leaf (.ident name.1)], name.2)

def readNumeric (repr r : Text) : List Lexeme × Text :=
  if startsIdent r then ([.leaf (.dimension repr (takeName r).1)], (takeName r).2)
  else match r with
    | '%' :: r => ([.leaf (.percentage repr)], r)
    | _ => ([.leaf (.number repr)], r)

def readString (q : CodePoint) (s : Text) : List Lexeme × Text :=
  match takeString q s with
  | (v, .closed, r) => ([.leaf (.string v true)], r)
  | (v, .atEnd, r) => ([.leaf (.string v false), .leaf (.error .stringAtEnd)], r)
  | (_, .broken, r) => ([.leaf (.error .badString)], r)

def readComment (s : Text) : List Lexeme × Text :=
  match Text.cutAt? "*/" s with
  | some (v, r) => ([.leaf (.comment v)], r)
  | none => ([.leaf (.comment s)], [])

/-- Single characters and the few longer marks, where nothing else starts. -/
def readMark (c : CodePoint) (s : Text) : List Lexeme × Text :=
  if c = '@' then
    if startsIdent s then ([.leaf (.atKeyword (takeName s).1)], (takeName s).2)
    else ([.leaf (.literal "@")], s)
  else if c = '#' then
    if (match s with | d :: _ => isNameChar d | [] => false) || startsEscape s then
      ([.leaf (.hash (takeName s).1 (startsIdent s))], (takeName s).2)
    else ([.leaf (.literal "#")], s)
  else if c = '\x7b' then ([.opening .curly], s)
  else if c = '[' then ([.opening .square], s)
  else if c = '(' then ([.opening .round], s)
  else if c = '\x7d' then ([.closing .curly], s)
  else if c = ']' then ([.closing .square], s)
  else if c = ')' then ([.closing .round], s)
  else if c = '"' ∨ c = '\'' then readString c s
  else match Text.after? "/*" (c :: s) with
  | some r => readComment r
  | none => match Text.after? "<!--" (c :: s) with
    | some r => ([.leaf (.literal "<!--")], r)
    | none => match Text.after? "||" (c :: s) with
      | some r => ([.leaf (.literal "||")], r)
      | none => match s with
        | '=' :: r => if isMatcher c then ([.leaf (.literal [c, '='])], r) else ([.leaf (.literal [c])], s)
        | _ => ([.leaf (.literal [c])], s)

/-- The range that starts after a `u`, if one does. -/
def rangeStart? (c : CodePoint) : Text → Option Text
  | '+' :: d :: s => if (c = 'u' ∨ c = 'U') ∧ (Text.isHexDigit d ∨ d = '?') then some (d :: s) else none
  | _ => none

/-- The tokens that start at `c`, one or, where the end cuts one off, two, and what follows. -/
def readToken (c : CodePoint) (s : Text) : List Lexeme × Text :=
  if isSpace c then ([.leaf (.whitespace (c :: s.takeWhile isSpace))], s.dropWhile isSpace)
  else match rangeStart? c s with
  | some r =>
    let range := takeRange r
    ([.leaf (.unicodeRange range.1 range.2.1)], range.2.2)
  | none => match Text.after? "-->" (c :: s) with
    | some r => ([.leaf (.literal "-->")], r)
    | none =>
      if startsIdent (c :: s) then readIdentLike (c :: s)
      else match takeNumber? (c :: s) with
      | some (repr, r) => readNumeric repr r
      | none => readMark c s

theorem after?_length {p s r : Text} (h : Text.after? p s = some r) : r.length + p.length = s.length := by
  rw [Text.eq_append_of_after? h]; simp [Nat.add_comm]

theorem takeName_length_of_startsIdent {c : CodePoint} {s : Text} (h : startsIdent (c :: s) = true) :
    (takeName (c :: s)).2.length ≤ s.length := by
  rw [takeName]
  split
  · exact takeName_length s
  · split
    · exact Nat.le_trans (takeName_length _) (takeEscape_length s)
    · rename_i hn he
      exfalso
      unfold startsIdent at h
      split at h
      · rename_i heq
        obtain ⟨rfl, rfl⟩ := by simpa using heq
        exact hn (by decide)
      · rename_i heq
        obtain ⟨rfl, rfl⟩ := by simpa using heq
        simp only [Bool.or_eq_true] at h
        rcases h with h | h
        · exact hn (by simp [isNameChar, h])
        · exact he h
      · rename_i heq; simp at heq

theorem readUrl_length (s : Text) : (readUrl s).2.length ≤ s.length := by
  have h := takeUrl_length s
  unfold readUrl
  split <;> simp_all

theorem readIdentLike_length {c : CodePoint} {s : Text} (h : startsIdent (c :: s) = true) :
    (readIdentLike (c :: s)).2.length ≤ s.length := by
  have hn := takeName_length_of_startsIdent h
  simp only [readIdentLike]
  split
  · rename_i r hr
    have hr := after?_length hr
    have hi := length_dropWhile_le isSpace r
    have hu := readUrl_length (r.dropWhile isSpace)
    split
    · omega
    · simp only []; omega
  · exact hn

theorem readNumeric_length (repr r : Text) : (readNumeric repr r).2.length ≤ r.length := by
  have h := takeName_length r
  unfold readNumeric
  split
  · exact h
  · split <;> simp

theorem readString_length (q : CodePoint) (s : Text) : (readString q s).2.length ≤ s.length := by
  have h := takeString_length q s
  unfold readString
  split <;> simp_all

theorem readComment_length (s : Text) : (readComment s).2.length ≤ s.length := by
  unfold readComment
  split
  · rename_i v r h
    have h := congrArg List.length (Text.eq_append_of_cutAt? h)
    simp only [List.length_append] at h
    simp only []
    omega
  · simp

theorem readMark_length (c : CodePoint) (s : Text) : (readMark c s).2.length ≤ s.length := by
  have hn := takeName_length s
  unfold readMark
  repeat' split
  all_goals first
    | exact hn
    | exact Nat.le_refl _
    | exact readString_length ..
    | simp; done
    | (rename_i r h; have := after?_length h; have := readComment_length r
       simp only [List.length_cons] at *; simp at *; omega)

theorem readToken_length (c : CodePoint) (s : Text) : (readToken c s).2.length ≤ s.length := by
  unfold readToken
  split
  · exact length_dropWhile_le ..
  · split
    · rename_i r h
      have hr := takeRange_length r
      unfold rangeStart? at h
      split at h
      · split at h
        · injection h with h; subst h
          simp only [List.length_cons] at *; omega
        · simp at h
      · simp at h
    · split
      · rename_i r h
        have := after?_length h
        simp at *; omega
      · split
        · rename_i h; exact readIdentLike_length h
        · split
          · rename_i repr r h
            have := takeNumber?_length h
            have := readNumeric_length repr r
            simp only [List.length_cons] at *; omega
          · exact readMark_length c s

/-- The tokens of a text that starts at `p`, each with its position. -/
def lexFrom (p : Position) : Text → List (Position × Lexeme)
  | [] => []
  | c :: s =>
    have := readToken_length c s
    let read := readToken c s
    read.1.map (p, ·) ++ lexFrom (p.past ((c :: s).take (s.length + 1 - read.2.length))) read.2
termination_by s => s.length

def lex (s : Text) : List (Position × Lexeme) := lexFrom .first (preprocess s)

end StylePrune.Css
