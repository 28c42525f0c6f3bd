import Mathlib.Data.List.TakeWhile
import StylePrune.Json.Reader

/-!
The grammar of JSON text: what a text begins with, and what follows that. The strings and numbers that the reader takes
are those of the grammar.
-/

set_option autoImplicit false

namespace StylePrune.Json

/-! ## The grammar -/

/-- Only space stands before what follows. -/
def Space (s r : Text) : Prop := ∃ gap, (∀ c ∈ gap, isSpace c = true) ∧ s = gap ++ r

/-- What can follow a value. -/
def Follows (r : Text) : Prop := ∀ c ∈ r.head?, isSpace c = true ∨ c = ',' ∨ c = ']' ∨ c = '\x7d'

/-- The code point that an escape by number stands for, from its digits on. -/
inductive Numbered : (s : Text) → CodePoint → (r : Text) → Prop where
  | pair {high low : Nat} {s t r : Text} (hs : takeUnit? s = some (high, .char '\\' :: .char 'u' :: t))
    (ht : takeUnit? t = some (low, r)) (hh : CodePoint.isHigh high = true) (hl : CodePoint.isLow low = true) :
    Numbered s (.ofHalves high low) r
  /-- A first half stands alone if no second one follows. -/
  | unit {n : Nat} {s r : Text} (hs : takeUnit? s = some (n, r)) (ha : CodePoint.isHigh n = true →
    ∀ t low u, r = .char '\\' :: .char 'u' :: t → takeUnit? t = some (low, u) → CodePoint.isLow low = false) :
    Numbered s (.ofNat n) r

/-- The inside of a string and its closing quote. -/
inductive Quoted : (s : Text) → (value : Text) → (r : Text) → Prop where
  | close {r : Text} : Quoted (.char '"' :: r) [] r
  | plain {c : CodePoint} {s t r : Text} (hq : c ≠ '"') (hb : c ≠ '\\') (hc : 0x20 ≤ c.toNat) (h : Quoted s t r) :
    Quoted (c :: s) (c :: t) r
  | escape {e c : CodePoint} {s t r : Text} (he : simpleEscape? e = some c) (h : Quoted s t r) :
    Quoted (.char '\\' :: e :: s) (c :: t) r
  | number {c : CodePoint} {s s' t r : Text} (hs : Numbered s c s') (h : Quoted s' t r) :
    Quoted (.char '\\' :: .char 'u' :: s) (c :: t) r

def IsDigits (s : Text) : Prop := s ≠ [] ∧ ∀ c ∈ s, c.isDigit = true

/-- No zero leads. -/
def IsWhole (s : Text) : Prop := s = [.char '0'] ∨ IsDigits s ∧ s.head? ≠ some (.char '0')

def IsFraction (s : Text) : Prop := s = [] ∨ ∃ ds, IsDigits ds ∧ s = .char '.' :: ds

def IsExponent (s : Text) : Prop := s = [] ∨ ∃ (e : CodePoint) (sign ds : Text), (e = 'e' ∨ e = 'E') ∧
  (sign = [] ∨ sign = [.char '+'] ∨ sign = [.char '-']) ∧ IsDigits ds ∧ s = e :: (sign ++ ds)

/-- How a number is written. -/
inductive Numeral : Text → Json → Prop where
  | int {sign whole : Text} (hs : sign = [] ∨ sign = [.char '-']) (hw : IsWhole whole)
    (hl : whole.length ≤ Number.maxDigits) : Numeral (sign ++ whole)
      (.int (if sign = [] then Text.digitsValue 10 whole else -(Text.digitsValue 10 whole : Int)))
  | float {sign whole fraction exponent : Text} (hs : sign = [] ∨ sign = [.char '-']) (hw : IsWhole whole)
    (hf : IsFraction fraction) (he : IsExponent exponent) (hne : fraction ≠ [] ∨ exponent ≠ []) :
    Numeral (sign ++ whole ++ fraction ++ exponent) (.float (sign ++ whole ++ fraction ++ exponent))

mutual
/-- A value in which values stand at most so many levels deep. -/
inductive Value : (levels : Nat) → (s : Text) → Json → (r : Text) → Prop where
  | string {l : Nat} {s t r : Text} (h : Quoted s t r) : Value l (.char '"' :: s) (.string t) r
  | word {l : Nat} {w r : Text} {v : Json} (h : (w, v) ∈ constants) : Value l (w ++ r) v r
  | number {l : Nat} {w r : Text} {v : Json} (h : Numeral w v) (hr : Follows r) : Value l (w ++ r) v r
  | emptyArray {l : Nat} {s r : Text} (hs : Space s (.char ']' :: r)) : Value (l + 1) (.char '[' :: s) (.array []) r
  | array {l : Nat} {s t r : Text} {vs : List Json} (hs : Space s t) (h : Items l t vs r) :
    Value (l + 1) (.char '[' :: s) (.array vs) r
  | emptyObject {l : Nat} {s r : Text} (hs : Space s (.char '\x7d' :: r)) :
    Value (l + 1) (.char '\x7b' :: s) (.object []) r
  | object {l : Nat} {s t r : Text} {fs : List (Text × Json)} (hs : Space s t) (h : Fields l t fs r) :
    Value (l + 1) (.char '\x7b' :: s) (.object (Table.ofList fs).entries) r

/-- The items of an array and its closing bracket. -/
inductive Items : (levels : Nat) → (s : Text) → List Json → (r : Text) → Prop where
  | last {l : Nat} {s t r : Text} {v : Json} (hv : Value l s v t) (ht : Space t (.char ']' :: r)) : Items l s [v] r
  | next {l : Nat} {s t u u' r : Text} {v : Json} {vs : List Json} (hv : Value l s v t)
    (ht : Space t (.char ',' :: u)) (hu : Space u u') (h : Items l u' vs r) : Items l s (v :: vs) r

/-- The fields of an object and its closing brace. -/
inductive Fields : (levels : Nat) → (s : Text) → List (Text × Json) → (r : Text) → Prop where
  | last {l : Nat} {s name t u u' x r : Text} {v : Json} (hn : Quoted s name t) (ht : Space t (.char ':' :: u))
    (hu : Space u u') (hv : Value l u' v x) (hx : Space x (.char '\x7d' :: r)) :
    Fields l (.char '"' :: s) [(name, v)] r
  | next {l : Nat} {s name t u u' x y y' r : Text} {v : Json} {fs : List (Text × Json)} (hn : Quoted s name t)
    (ht : Space t (.char ':' :: u)) (hu : Space u u') (hv : Value l u' v x) (hx : Space x (.char ',' :: y))
    (hy : Space y y') (h : Fields l y' fs r) : Fields l (.char '"' :: s) ((name, v) :: fs) r
end

/-- A text that is one value, with space around it. -/
def Document (levels : Nat) (s : Text) (v : Json) : Prop := ∃ t r, Space s t ∧ Value levels t v r ∧ Space r []

section

variable {s t r gap ds w : Text} {c : CodePoint} {n : Nat} {v : Json}

/-! ## Space -/

theorem Space.suffix (h : Space s r) : r <:+ s := by
  obtain ⟨gap, -, rfl⟩ := h
  exact List.suffix_append gap r

theorem space_skipSpace (s : Text) : Space s (skipSpace s) :=
  ⟨s.takeWhile isSpace, fun _ hc => List.mem_takeWhile_imp hc, List.takeWhile_append_dropWhile.symm⟩

theorem Space.skipSpace_eq (h : Space s r) : skipSpace s = skipSpace r := by
  obtain ⟨gap, hg, rfl⟩ := h
  exact List.dropWhile_append_of_pos hg

theorem Space.skipSpace_cons (h : Space s (c :: r)) (hc : isSpace c = false) : skipSpace s = c :: r := by
  rw [h.skipSpace_eq, skipSpace, List.dropWhile_cons_of_neg (by simp [hc])]

theorem follows_nil : Follows [] := by simp [Follows]

theorem Space.follows (h : Space s r) (hr : Follows r) : Follows s := by
  obtain ⟨gap, hg, rfl⟩ := h
  cases gap <;> simp_all [Follows]

/-! ## Strings -/

theorem suffix_of_takeUnit? (h : takeUnit? s = some (n, r)) : r <:+ s := by
  unfold takeUnit? at h
  split at h
  · rename_i a b c d s
    split at h
    · obtain ⟨-, rfl⟩ := Prod.mk.inj (Option.some.inj h)
      exact List.suffix_append [a, b, c, d] s
    · cases h
  · cases h

theorem takeCodePoint?_of_numbered (h : Numbered s c r) : takeCodePoint? s = some (c, r) := by
  cases h with
  | @pair high low _ t _ hs ht hh hl =>
    have hafter : Text.after? "\\u" (.char '\\' :: .char 'u' :: t) = some t := Text.after?_append "\\u" t
    simp [takeCodePoint?, hs, hh, hafter, ht, hl]
  | unit hs ha =>
    rw [takeCodePoint?, hs]
    dsimp only
    split
    · rename_i hlow
      split at hlow
      · rename_i hh
        obtain ⟨t, ht, hlow⟩ := Option.bind_eq_some_iff.1 hlow
        simp [ha hh t _ _ (Text.eq_append_of_after? ht) hlow]
      · cases hlow
    · rfl

/-- An escape by number is a pair if it can be, else one unit. -/
theorem numbered_of_takeUnit? (h : takeUnit? s = some (n, r)) : ∃ c t, Numbered s c t := by
  by_cases hp : CodePoint.isHigh n = true ∧ ∃ t low u, r = .char '\\' :: .char 'u' :: t ∧
      takeUnit? t = some (low, u) ∧ CodePoint.isLow low = true
  · obtain ⟨hh, t, low, u, rfl, ht, hl⟩ := hp
    exact ⟨_, _, .pair h ht hh hl⟩
  · refine ⟨_, _, .unit h fun hh t low u hr ht => ?_⟩
    by_contra hl
    exact hp ⟨hh, t, low, u, hr, ht, by simpa using hl⟩

theorem takeCodePoint?_eq_some_iff : takeCodePoint? s = some (c, r) ↔ Numbered s c r := by
  refine ⟨fun h => ?_, takeCodePoint?_of_numbered⟩
  cases hs : takeUnit? s with
  | none => simp [takeCodePoint?, hs] at h
  | some u =>
    obtain ⟨c', t, hn⟩ := numbered_of_takeUnit? hs
    have := takeCodePoint?_of_numbered hn
    simp_all

theorem Numbered.suffix (h : Numbered s c r) : r <:+ s := by
  cases h with
  | pair hs ht =>
    exact (suffix_of_takeUnit? ht).trans ((List.suffix_append [_, _] _).trans (suffix_of_takeUnit? hs))
  | unit hs => exact suffix_of_takeUnit? hs

theorem Quoted.suffix (h : Quoted s t r) : r <:+ s := by
  induction h with
  | close => exact List.suffix_cons _ _
  | plain _ _ _ _ ih => exact ih.trans (List.suffix_cons _ _)
  | escape _ _ ih => exact ih.trans (List.suffix_append [_, _] _)
  | number hs _ ih => exact (ih.trans hs.suffix).trans (List.suffix_append [_, _] _)

theorem quoted_of_takeString? (h : takeString? n s = some (t, r)) : Quoted s t r := by
  fun_induction takeString? n s generalizing t r with
  | case3 =>
    obtain ⟨rfl, rfl⟩ := Prod.mk.inj (Option.some.inj h)
    exact .close
  | case5 n s c u hc _ ih =>
    obtain ⟨⟨t', r'⟩, hu, he⟩ := Option.map_eq_some_iff.1 h
    obtain ⟨rfl, rfl⟩ := Prod.mk.inj he
    exact .number (takeCodePoint?_eq_some_iff.1 hc) (ih hu)
  | case7 n e s _ c he _ ih =>
    obtain ⟨⟨t', r'⟩, hs, he'⟩ := Option.map_eq_some_iff.1 h
    obtain ⟨rfl, rfl⟩ := Prod.mk.inj he'
    exact .escape he (ih hs)
  | case10 n c s hq hb hc ih =>
    obtain ⟨⟨t', r'⟩, hs, he⟩ := Option.map_eq_some_iff.1 h
    obtain ⟨rfl, rfl⟩ := Prod.mk.inj he
    exact .plain hq hb (Nat.not_lt.1 hc) (ih hs)
  | _ => cases h

theorem takeString?_of_quoted (h : Quoted s t r) (hn : s.length ≤ n) : takeString? n s = some (t, r) := by
  induction h generalizing n with
  | close =>
    obtain ⟨n, rfl⟩ : ∃ m, n = m + 1 := ⟨n - 1, by simp at hn; omega⟩
    rfl
  | plain hq hb hc _ ih =>
    obtain ⟨n, rfl⟩ : ∃ m, n = m + 1 := ⟨n - 1, by simp at hn; omega⟩
    rw [takeString?.eq_def]
    simp [hq, hb, Nat.not_lt.2 hc, ih (by simpa using hn)]
  | @escape e _ _ _ _ he _ ih =>
    obtain ⟨n, rfl⟩ : ∃ m, n = m + 1 := ⟨n - 1, by simp at hn; omega⟩
    have hu : e ≠ .char 'u' := by
      rintro rfl
      simp [simpleEscape?] at he
    rw [takeString?, if_neg (by decide), if_pos rfl, he, ih (by simp at hn; omega)]
    · rfl
    · exact hu
  | number hs _ ih =>
    obtain ⟨n, rfl⟩ : ∃ m, n = m + 1 := ⟨n - 1, by simp at hn; omega⟩
    have hle := hs.suffix.length_le
    have hread := ih (n := n) (by simp at hn; omega)
    rw [takeString?, if_neg (by decide), if_pos rfl, takeCodePoint?_of_numbered hs]
    simp [hread]

theorem takeString?_eq_some_iff (hn : s.length ≤ n) : takeString? n s = some (t, r) ↔ Quoted s t r :=
  ⟨quoted_of_takeString?, fun h => takeString?_of_quoted h hn⟩

/-! ## Numbers -/

/-- Nothing that a run of digits could go on with. -/
def NoDigit (r : Text) : Prop := ∀ c ∈ r.head?, c.isDigit = false

/-- Nothing that a number could go on with. -/
def NoNumber (r : Text) : Prop := ∀ c ∈ r.head?, c.isDigit = false ∧ c ≠ '.' ∧ c ≠ 'e' ∧ c ≠ 'E'

theorem NoNumber.noDigit (h : NoNumber r) : NoDigit r := fun c hc => (h c hc).1

theorem Follows.noNumber (h : Follows r) : NoNumber r := by
  intro c hc
  rcases h c hc with h | rfl | rfl | rfl
  · simp only [isSpace, Bool.or_eq_true, beq_iff_eq] at h
    rcases h with ((rfl | rfl) | rfl) | rfl <;> decide
  all_goals decide

theorem digits_append (hd : ∀ c ∈ ds, c.isDigit = true) (hr : NoDigit r) : digits (ds ++ r) = (ds, r) := by
  have hdrop : r.dropWhile CodePoint.isDigit = r := by
    cases r <;> simp_all [NoDigit]
  have htake : r.takeWhile CodePoint.isDigit = [] := by
    cases r <;> simp_all [NoDigit]
  rw [digits, List.takeWhile_append_of_pos hd, List.dropWhile_append_of_pos hd, hdrop, htake, List.append_nil]

/-- Digits are taken as long as there are some. -/
theorem digits_spec (s : Text) (h : (digits s).1 ≠ []) : IsDigits (digits s).1 ∧ s = (digits s).1 ++ (digits s).2 :=
  ⟨⟨h, fun _ hc => List.mem_takeWhile_imp hc⟩, List.takeWhile_append_dropWhile.symm⟩

theorem isWhole_of_takeWhole? (h : takeWhole? s = some (w, r)) : IsWhole w ∧ s = w ++ r := by
  unfold takeWhole? at h
  split at h
  · obtain ⟨rfl, rfl⟩ := Prod.mk.inj (Option.some.inj h)
    exact ⟨.inl rfl, rfl⟩
  · rename_i hzero
    by_cases hd : (digits s).1 = []
    · simp [hd] at h
    · obtain ⟨hdigits, hs⟩ := digits_spec s hd
      simp [hd] at h
      rw [h] at hdigits hs
      refine ⟨.inr ⟨hdigits, fun hz => ?_⟩, hs⟩
      cases w with
      | nil => simp at hz
      | cons c w => exact hzero (w ++ r) (by simp_all)

theorem takeWhole?_append (hw : IsWhole w) (hr : NoDigit r) : takeWhole? (w ++ r) = some (w, r) := by
  obtain rfl | ⟨hd, hz⟩ := hw
  · rfl
  · have hdigits := digits_append hd.2 hr
    unfold takeWhole?
    split
    · rename_i hs
      obtain ⟨c, w, rfl⟩ := List.exists_cons_of_ne_nil hd.1
      simp_all
    · simp [hdigits, hd.1]

theorem takeFraction_spec (s : Text) : IsFraction (takeFraction s).1 ∧ s = (takeFraction s).1 ++ (takeFraction s).2 := by
  unfold takeFraction
  split
  · rename_i r
    by_cases hd : (digits r).1 = []
    · simp [hd, IsFraction]
    · obtain ⟨hdigits, hr⟩ := digits_spec r hd
      simp [hd, IsFraction, hdigits]
      exact hr
  · simp [IsFraction]

theorem takeFraction_append (hw : IsFraction w) (hr : NoDigit r) (hp : r.head? ≠ some (.char '.')) :
    takeFraction (w ++ r) = (w, r) := by
  obtain rfl | ⟨ds, hd, rfl⟩ := hw
  · unfold takeFraction
    split <;> simp_all
  · simp [takeFraction, digits_append hd.2 hr, hd.1]

theorem takeExponent_spec (s : Text) : IsExponent (takeExponent s).1 ∧ s = (takeExponent s).1 ++ (takeExponent s).2 := by
  unfold takeExponent
  split
  · rename_i c r
    by_cases hc : c = 'e' ∨ c = 'E'
    · rw [if_pos hc]
      -- whichever sign there is, digits follow it or nothing is taken
      have taken (sign t : Text) (hs : sign = [] ∨ sign = [.char '+'] ∨ sign = [.char '-']) (hr : r = sign ++ t)
          {e : Text × Text} (he : e = if (digits t).1 = [] then ([], c :: r) else (c :: sign ++ (digits t).1, (digits t).2)) :
          IsExponent e.1 ∧ c :: r = e.1 ++ e.2 := by
        by_cases hd : (digits t).1 = []
        · simp [he, hd, IsExponent]
        · obtain ⟨hdigits, ht⟩ := digits_spec t hd
          simp only [he, hd, if_false]
          exact ⟨.inr ⟨c, sign, _, hc, hs, hdigits, rfl⟩, by simp [hr, ← ht]⟩
      dsimp only
      split
      · exact taken [.char '+'] _ (by simp) rfl rfl
      · exact taken [.char '-'] _ (by simp) rfl rfl
      · exact taken [] _ (by simp) rfl rfl
    · simp [hc, IsExponent]
  · simp [IsExponent]

theorem takeExponent_append (hw : IsExponent w) (hr : NoNumber r) : takeExponent (w ++ r) = (w, r) := by
  obtain rfl | ⟨e, sign, ds, he, hs, hd, rfl⟩ := hw
  · cases r with
    | nil => rfl
    | cons c r =>
      obtain ⟨-, -, he, hE⟩ := hr c rfl
      simp [takeExponent, he, hE]
  · have hdigits := digits_append hd.2 hr.noDigit
    simp only [takeExponent, List.cons_append, List.append_assoc]
    rw [if_pos he]
    obtain rfl | rfl | rfl := hs
    · obtain ⟨d, ds, rfl⟩ := List.exists_cons_of_ne_nil hd.1
      have hdigit := hd.2 d List.mem_cons_self
      split
      · simp_all [CodePoint.isDigit, CodePoint.char?]
      · simp_all [CodePoint.isDigit, CodePoint.char?]
      · simp_all
    · simp [hdigits, hd.1]
    · simp [hdigits, hd.1]

theorem numeral_of_takeUnsigned {sign : Text} (hs : sign = [] ∨ sign = [.char '-'])
    (h : takeUnsigned sign s = .ok (v, r)) : ∃ w, Numeral w v ∧ sign ++ s = w ++ r := by
  unfold takeUnsigned at h
  dsimp only at h
  split at h
  · cases h
  rename_i whole hwhole
  obtain ⟨hw, hrest⟩ : IsWhole whole.1 ∧ s = whole.1 ++ whole.2 := isWhole_of_takeWhole? hwhole
  obtain ⟨hf, hfraction⟩ := takeFraction_spec whole.2
  obtain ⟨he, hexponent⟩ := takeExponent_spec (takeFraction whole.2).2
  split at h
  · rename_i hne
    obtain ⟨rfl, rfl⟩ := Prod.mk.inj (Except.ok.inj h)
    exact ⟨_, .float hs hw hf he hne, by simp [hrest, ← hexponent, ← hfraction]⟩
  · rename_i hne
    split at h
    · cases h
    rename_i hlong
    obtain ⟨rfl, rfl⟩ := Prod.mk.inj (Except.ok.inj h)
    refine ⟨_, .int hs hw ?_, ?_⟩
    · by_contra hl
      simp [Number.tooLong?, Nat.not_le.1 hl] at hlong
    · obtain ⟨hf, he⟩ : (takeFraction whole.2).1 = [] ∧ (takeExponent (takeFraction whole.2).2).1 = [] := by
        simpa using hne
      rw [hf, List.nil_append] at hfraction
      rw [he, List.nil_append] at hexponent
      rw [← hexponent, ← hfraction, hrest, List.append_assoc]

theorem numeral_of_takeNumber (h : takeNumber s = .ok (v, r)) : ∃ w, Numeral w v ∧ s = w ++ r := by
  unfold takeNumber at h
  split at h
  · exact numeral_of_takeUnsigned (.inr rfl) h
  · exact numeral_of_takeUnsigned (.inl rfl) h

theorem takeUnsigned_append (sign : Text) {whole fraction exponent : Text} (hw : IsWhole whole) (hf : IsFraction fraction)
    (he : IsExponent exponent) (hl : fraction ≠ [] ∨ exponent ≠ [] ∨ whole.length ≤ Number.maxDigits) (hr : NoNumber r) :
    takeUnsigned sign (whole ++ (fraction ++ (exponent ++ r))) = .ok
      (if fraction ≠ [] ∨ exponent ≠ [] then .float (sign ++ whole ++ fraction ++ exponent)
        else .int (if sign = [] then Text.digitsValue 10 whole else -(Text.digitsValue 10 whole : Int)), r) := by
  have hexponent : NoDigit (exponent ++ r) ∧ (exponent ++ r).head? ≠ some (.char '.') := by
    obtain rfl | ⟨e, _, _, rfl | rfl, -, -, rfl⟩ := he
    · exact ⟨hr.noDigit, fun h => (hr _ h).2.1 rfl⟩
    all_goals simp [NoDigit, CodePoint.isDigit, CodePoint.char?]
  have hfraction : NoDigit (fraction ++ (exponent ++ r)) := by
    obtain rfl | ⟨_, -, rfl⟩ := hf
    · exact hexponent.1
    · simp [NoDigit, CodePoint.isDigit, CodePoint.char?]
  simp only [takeUnsigned, takeWhole?_append hw hfraction, takeFraction_append hf hexponent.1 hexponent.2,
    takeExponent_append he hr]
  by_cases hne : fraction ≠ [] ∨ exponent ≠ []
  · simp only [if_pos hne]
  · obtain ⟨rfl, rfl⟩ : fraction = [] ∧ exponent = [] := by simpa using hne
    have hl : whole.length ≤ Number.maxDigits := by simpa using hl
    simp [Number.tooLong?, Nat.not_lt.2 hl]

/-- What stands first in a number after its sign. -/
theorem IsWhole.head (hw : IsWhole w) : ∃ c t, w = c :: t ∧ c.isDigit = true := by
  obtain rfl | ⟨hd, -⟩ := hw
  · exact ⟨_, _, rfl, rfl⟩
  · obtain ⟨c, t, rfl⟩ := List.exists_cons_of_ne_nil hd.1
    exact ⟨c, t, rfl, hd.2 c List.mem_cons_self⟩

theorem takeNumber_sign {sign : Text} (hs : sign = [] ∨ sign = [.char '-']) (hw : IsWhole w) (r : Text) :
    takeNumber (sign ++ (w ++ r)) = takeUnsigned sign (w ++ r) := by
  obtain rfl | rfl := hs
  · obtain ⟨c, t, rfl, hc⟩ := hw.head
    unfold takeNumber
    split
    · simp_all [CodePoint.isDigit, CodePoint.char?]
    · rfl
  · rfl

theorem takeNumber_append (hw : Numeral w v) (hr : Follows r) : takeNumber (w ++ r) = .ok (v, r) := by
  cases hw with
  | @int sign _ hs hw hl =>
    have htake := takeUnsigned_append sign hw (.inl rfl) (.inl rfl) (.inr (.inr hl)) hr.noNumber
    rw [List.append_assoc, takeNumber_sign hs hw]
    simpa using htake
  | @float sign _ _ _ hs hw hf he hne =>
    have htake := takeUnsigned_append sign hw hf he (hne.imp_right Or.inl) hr.noNumber
    simp only [List.append_assoc, takeNumber_sign hs hw, htake, if_pos hne]

/-- The depth of what is read matters for arrays and objects only. -/
theorem takeNumber_ne_tooDeep (s : Text) (t : TooDeep) : takeNumber s ≠ .error (.tooDeep t) := by
  have unsigned (sign s : Text) : takeUnsigned sign s ≠ .error (.tooDeep t) := by
    unfold takeUnsigned
    dsimp only
    split
    · simp
    · split
      · simp
      · split <;> simp
  unfold takeNumber
  split <;> exact unsigned _ _

end
end StylePrune.Json
