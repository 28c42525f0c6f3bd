import Mathlib
import StylePrune.Proofs.Css.Spelling

/-!
Numbers, units and ranges of characters as they are written. A number reads back from its own text where what stands behind
does not carry it on.
-/

set_option autoImplicit false

namespace StylePrune.Css

/-- A digit stands first. -/
def startsDigit (s : Text) : Bool := s.head?.any CodePoint.isDigit

/-- A point stands first, before a digit. -/
def startsPoint : Text → Bool
  | '.' :: s => startsDigit s
  | _ => false

theorem startsPoint_of_ne {c : CodePoint} (h : c ≠ '.') (s : Text) : startsPoint (c :: s) = false := by
  unfold startsPoint
  split
  · rename_i heq
    exact absurd (List.cons.inj heq).1 h
  · rfl

section Parts

variable {s m ds : Text}

def IsSign (s : Text) : Prop := s = [] ∨ s = ['+'] ∨ s = ['-']

def IsDigits (s : Text) : Prop := s ≠ [] ∧ ∀ c ∈ s, c.isDigit = true

inductive IsFraction : Text → Prop
  | none : IsFraction []
  | some {ds : Text} (h : IsDigits ds) : IsFraction ('.' :: ds)

inductive IsExponent : Text → Prop
  | none : IsExponent []
  | some {c : CodePoint} {sign ds : Text} (hc : c = 'e' ∨ c = 'E') (hs : IsSign sign) (hd : IsDigits ds) :
    IsExponent (c :: (sign ++ ds))

/-- The text of a number: a sign, digits, a fraction and an exponent, with digits before or behind the point. -/
inductive IsNumber : Text → Prop
  | mk {sign whole fraction exponent : Text} (hs : IsSign sign) (hw : ∀ c ∈ whole, c.isDigit = true)
    (hf : IsFraction fraction) (hn : whole ≠ [] ∨ fraction ≠ []) (he : IsExponent exponent) :
    IsNumber (sign ++ (whole ++ fraction) ++ exponent)

/-- A number with neither a fraction nor an exponent. -/
def isWhole (r : Text) : Bool := !r.any fun (c : CodePoint) => c == '.' || c == 'e' || c == 'E'

theorem takeDigits_append_of_not (hd : ∀ c ∈ ds, c.isDigit = true) (hm : startsDigit m = false) :
    takeDigits (ds ++ m) = (ds, m) := by
  induction ds with
  | nil =>
    cases m with
    | nil => rfl
    | cons c m =>
      have hc : c.isDigit = false := hm
      simp [takeDigits, hc]
  | cons c ds ih =>
    obtain ⟨hc, hd⟩ := List.forall_mem_cons.1 hd
    have ih := Prod.mk.inj (ih hd)
    simp [takeDigits, hc, ih.1, ih.2]

theorem startsDigit_takeDigits (s : Text) : startsDigit (takeDigits s).2 = false := by
  have h := List.head?_dropWhile_not CodePoint.isDigit s
  rw [startsDigit, takeDigits]
  split at h
  · rename_i c hc
    rw [hc]
    exact h
  · rename_i hc
    rw [hc]
    rfl

theorem isDigits_takeDigits (h : (takeDigits s).1 ≠ []) : IsDigits (takeDigits s).1 :=
  ⟨h, fun _ hc => List.all_eq_true.1 List.all_takeWhile _ hc⟩

theorem isSign_takeSign (s : Text) : IsSign (takeSign s).1 := by
  unfold takeSign
  split
  · exact .inr (.inl rfl)
  · exact .inr (.inr rfl)
  · exact .inl rfl

/-- A sign is taken, and nothing where there is none. -/
theorem takeSign_append_of_not {sign : Text} (hs : IsSign sign) (h : s.head? ≠ some (.char '+') ∧ s.head? ≠ some (.char '-')) :
    takeSign (sign ++ s) = (sign, s) := by
  rcases hs with rfl | rfl | rfl
  · rw [List.nil_append]
    unfold takeSign
    split
    · exact absurd rfl h.1
    · exact absurd rfl h.2
    · rfl
  · rfl
  · rfl

theorem IsDigits.head?_ne (h : IsDigits ds) (m : Text) :
    (ds ++ m).head? ≠ some (.char '+') ∧ (ds ++ m).head? ≠ some (.char '-') := by
  obtain ⟨hne, hd⟩ := h
  cases ds with
  | nil => exact absurd rfl hne
  | cons c ds =>
    have hc := hd c List.mem_cons_self
    constructor
    all_goals
      rintro h
      obtain rfl := Option.some.inj h
      exact absurd hc (by decide)

theorem IsExponent.takeExponent_append {e : Text} (he : IsExponent e) (hd : startsDigit m = false)
    (hm : takeExponent m = ([], m)) : takeExponent (e ++ m) = (e, m) := by
  cases he with
  | none => exact hm
  | @some c sign ds hc hs hds =>
    have hsign := takeSign_append_of_not hs (hds.head?_ne m)
    rw [List.cons_append, List.append_assoc, takeExponent]
    simp [hsign, takeDigits_append_of_not hds.2 hd, hc, hds.1]

theorem isExponent_takeExponent (s : Text) : IsExponent (takeExponent s).1 ∧
    ((takeExponent s).1 = [] ∧ (takeExponent s).2 = s ∨
      startsDigit (takeExponent s).2 = false ∧ isWhole (takeExponent s).1 = false) := by
  cases s with
  | nil => exact ⟨.none, .inl ⟨rfl, rfl⟩⟩
  | cons c s =>
    simp only [takeExponent]
    split
    · rename_i h
      refine ⟨.some h.1 (isSign_takeSign s) (isDigits_takeDigits h.2), .inr ⟨startsDigit_takeDigits _, ?_⟩⟩
      rcases h.1 with rfl | rfl <;> simp [isWhole]
    · exact ⟨.none, .inl ⟨rfl, rfl⟩⟩

theorem takeDecimal?_append_of_not {w f : Text} (hw : ∀ c ∈ w, c.isDigit = true) (hf : IsFraction f) (hn : w ≠ [] ∨ f ≠ [])
    (hd : startsDigit m = false) (hp : f = [] → startsPoint m = false) : takeDecimal? (w ++ f ++ m) = some (w ++ f, m) := by
  cases hf with
  | none =>
    have hn : w ≠ [] := hn.resolve_right fun h => h rfl
    have hp := hp rfl
    simp only [List.append_nil, takeDecimal?, takeDigits_append_of_not hw hd, hn, if_false]
    split
    · rename_i r hr
      obtain rfl : m = CodePoint.char '.' :: r := Text.eq_append_of_after? hr
      have hr : (takeDigits r).1 = [] := by
        cases r with
        | nil => rfl
        | cons c r =>
          have hc : c.isDigit = false := hp
          simp [takeDigits, hc]
      simp [hr]
    · rfl
  | @some ds hds =>
    have hpoint : startsDigit ('.' :: (ds ++ m)) = false := rfl
    have hafter : Text.after? ['.'] (CodePoint.char '.' :: (ds ++ m)) = some (ds ++ m) := rfl
    simp [takeDecimal?, takeDigits_append_of_not hw hpoint, hafter, takeDigits_append_of_not hds.2 hd, hds.1]

end Parts

variable {s r t m : Text}

theorem IsNumber.head?_decimal {w f m : Text} (hw : ∀ c ∈ w, c.isDigit = true) (hf : IsFraction f) (hn : w ≠ [] ∨ f ≠ []) :
    (w ++ f ++ m).head? ≠ some (.char '+') ∧ (w ++ f ++ m).head? ≠ some (.char '-') := by
  cases w with
  | nil =>
    cases hf with
    | none => simp at hn
    | some => simp
  | cons c w =>
    rw [List.append_assoc]
    exact IsDigits.head?_ne ⟨List.cons_ne_nil c w, hw⟩ _

/-- A number reads back where neither a digit, nor a fraction of a whole number, nor an exponent follows. -/
theorem IsNumber.takeNumber?_append (h : IsNumber r) (hd : startsDigit m = false)
    (hp : isWhole r = true → startsPoint m = false) (he : takeExponent m = ([], m)) : takeNumber? (r ++ m) = some (r, m) := by
  obtain @⟨sign, w, f, e, hs, hw, hf, hn, hx⟩ := h
  have hsign : takeSign (sign ++ (w ++ f) ++ e ++ m) = (sign, w ++ f ++ (e ++ m)) := by
    rw [List.append_assoc, List.append_assoc]
    exact takeSign_append_of_not hs (IsNumber.head?_decimal hw hf hn)
  have hexp := hx.takeExponent_append hd he
  have hdec : takeDecimal? (w ++ f ++ (e ++ m)) = some (w ++ f, e ++ m) := by
    cases hx with
    | none =>
      refine takeDecimal?_append_of_not hw hf hn hd ?_
      rintro rfl
      refine hp ?_
      have digit {c : CodePoint} (hc : c.isDigit = true) : c ≠ '.' ∧ c ≠ 'e' ∧ c ≠ 'E' := by
        refine ⟨?_, ?_, ?_⟩ <;> rintro rfl <;> exact absurd hc (by decide)
      have hall : ∀ c ∈ w, ¬ (c = '.' ∨ c = 'e' ∨ c = 'E') := fun c hc => by simpa using digit (hw c hc)
      rcases hs with rfl | rfl | rfl <;> simpa [isWhole, or_assoc] using hall
    | @some c sg ds hc hsg hds =>
      have hne : c ≠ '.' ∧ c.isDigit = false := by rcases hc with rfl | rfl <;> decide
      exact takeDecimal?_append_of_not hw hf hn hne.2 fun _ => startsPoint_of_ne hne.1 _
  simp only [takeNumber?, hsign, hdec, Option.map_some, hexp]

/-- What is taken for a number is one, and ends before what would carry it on. -/
theorem isNumber_of_takeNumber? (h : takeNumber? s = some (r, t)) :
    IsNumber r ∧ startsDigit t = false ∧ (isWhole r = true → startsPoint t = false) := by
  obtain ⟨d, hd, he⟩ := Option.map_eq_some_iff.1 h
  obtain ⟨rfl, rfl⟩ := Prod.mk.inj he
  obtain ⟨hexp, hrest⟩ := isExponent_takeExponent d.2
  have hsign := isSign_takeSign s
  generalize (takeSign s).1 = sign, (takeSign s).2 = u at hd hsign
  have hsplit : ∃ w f, d.1 = w ++ f ∧ (∀ c ∈ w, c.isDigit = true) ∧ IsFraction f ∧ (w ≠ [] ∨ f ≠ []) ∧
      startsDigit d.2 = false ∧ (isWhole d.1 = true → startsPoint d.2 = false) := by
    have hw : ∀ c ∈ (takeDigits u).1, c.isDigit = true := fun _ hc => List.all_eq_true.1 List.all_takeWhile _ hc
    have hend := startsDigit_takeDigits u
    simp only [takeDecimal?] at hd
    split at hd
    · rename_i v hv
      split at hd
      · rename_i hf
        obtain rfl := Option.some.inj hd
        exact ⟨_, _, rfl, hw, .some (isDigits_takeDigits hf), .inr (List.cons_ne_nil _ _), startsDigit_takeDigits v,
          by simp [isWhole]⟩
      · rename_i hf
        split at hd
        · cases hd
        · rename_i hne
          obtain rfl := Option.some.inj hd
          refine ⟨_, [], (List.append_nil _).symm, hw, .none, .inl hne, hend, fun _ => ?_⟩
          rw [Text.eq_append_of_after? hv]
          cases v with
          | nil => rfl
          | cons c v =>
            have hc : c.isDigit = false := by simpa [takeDigits] using hf
            exact hc
    · rename_i hv
      split at hd
      · cases hd
      · rename_i hne
        obtain rfl := Option.some.inj hd
        refine ⟨_, [], (List.append_nil _).symm, hw, .none, .inl hne, hend, fun _ => ?_⟩
        cases hr : (takeDigits u).2 with
        | nil => rfl
        | cons c v =>
          refine startsPoint_of_ne ?_ v
          rintro rfl
          simp [hr, Text.after?] at hv
  obtain ⟨w, f, hd₁, hw, hf, hn, hdigit, hpoint⟩ := hsplit
  refine ⟨hd₁ ▸ .mk hsign hw hf hn hexp, ?_, fun hr => ?_⟩
  · rcases hrest with ⟨-, hr⟩ | ⟨hr, -⟩
    · rwa [hr]
    · exact hr
  · rcases hrest with ⟨hx, ht⟩ | ⟨-, hx⟩
    · rw [ht]
      refine hpoint ?_
      simp only [isWhole, List.any_append, hx, List.any_nil, Bool.or_false, Bool.not_or, Bool.and_eq_true] at hr ⊢
      exact hr.2
    · simp only [isWhole, List.any_append, Bool.not_or, Bool.and_eq_true] at hr hx
      simp [hr.2] at hx

theorem isSome_takeDecimal? (h : startsDigit s = true ∨ startsPoint s = true) : (takeDecimal? s).isSome = true := by
  rcases h with h | h
  · cases s with
    | nil => cases h
    | cons c s =>
      have hc : c.isDigit = true := h
      have hw : (takeDigits (c :: s)).1 ≠ [] := by simp [takeDigits, hc]
      simp only [takeDecimal?, hw, if_false]
      split
      · split <;> rfl
      · rfl
  · unfold startsPoint at h
    split at h
    · rename_i t
      have hf : (takeDigits t).1 ≠ [] := by
        cases t with
        | nil => cases h
        | cons c t =>
          have hc : c.isDigit = true := h
          simp [takeDigits, hc]
      have hw : takeDigits ('.' :: t) = ([], .char '.' :: t) := rfl
      have ha : Text.after? ['.'] (CodePoint.char '.' :: t) = some t := rfl
      simp [takeDecimal?, hw, ha, hf]
    · cases h

theorem takeDecimal?_eq_none (hd : startsDigit s = false) (hp : startsPoint s = false) : takeDecimal? s = none := by
  have digits {t : Text} (ht : startsDigit t = false) : takeDigits t = ([], t) :=
    List.nil_append t ▸ takeDigits_append_of_not (List.forall_mem_nil _) ht
  simp only [takeDecimal?, digits hd]
  split
  · rename_i r hr
    obtain rfl : s = CodePoint.char '.' :: r := Text.eq_append_of_after? hr
    simp [digits (show startsDigit r = false from hp)]
  · rfl

theorem takeNumber?_sign_eq_none {g : Text} (hs : IsSign g)
    (hne : s.head? ≠ some (.char '+') ∧ s.head? ≠ some (.char '-') ∨ g ≠ [])
    (hd : startsDigit s = false) (hp : startsPoint s = false) : takeNumber? (g ++ s) = none := by
  have ht : takeSign (g ++ s) = (g, s) := by
    rcases hne with hne | hne
    · exact takeSign_append_of_not hs hne
    · rcases hs with rfl | rfl | rfl
      · exact absurd rfl hne
      · rfl
      · rfl
  simp [takeNumber?, ht, takeDecimal?_eq_none hd hp]

/-- Where no number starts, neither a digit nor a point before a digit stands behind the sign. -/
theorem not_starts_of_takeNumber? {g : Text} (hs : IsSign g) (h : takeNumber? (g ++ s) = none) :
    startsDigit s = false ∧ startsPoint s = false := by
  rw [← Bool.or_eq_false_iff, ← Bool.not_eq_true, Bool.or_eq_true]
  intro hd
  have hne : s.head? ≠ some (.char '+') ∧ s.head? ≠ some (.char '-') := by
    cases s with
    | nil => simp
    | cons c s =>
      constructor
      all_goals
        rintro hc
        obtain rfl := Option.some.inj hc
        rcases hd with hd | hd <;> cases hd
  obtain ⟨d, hd⟩ := Option.isSome_iff_exists.1 (isSome_takeDecimal? hd)
  simp [takeNumber?, takeSign_append_of_not hs hne, hd] at h

/-- Behind its sign a number starts with a digit, or with a point and a digit. -/
theorem IsNumber.exists_sign (h : IsNumber r) :
    ∃ sign b, r = sign ++ b ∧ IsSign sign ∧ (startsDigit b = true ∨ startsPoint b = true) := by
  obtain @⟨sign, w, f, e, hs, hw, hf, hn, -⟩ := h
  refine ⟨sign, w ++ f ++ e, by rw [List.append_assoc], hs, ?_⟩
  cases w with
  | cons c w => exact .inl (hw c List.mem_cons_self)
  | nil =>
    cases hf with
    | none => simp at hn
    | @some ds hds =>
      obtain ⟨hne, hds⟩ := hds
      cases ds with
      | nil => exact absurd rfl hne
      | cons d ds => exact .inr (hds d List.mem_cons_self)

section Units

/-- What the unit of a dimension reads as when it is written: an escaped letter is always a small one. -/
def rereadUnit (u : Text) : Text :=
  match u with
  | c :: s => if (c = 'e' ∨ c = 'E') ∧ (s = [] ∨ s.head? = some (.char '-')) then 'e' :: s else u
  | [] => []

/-- A unit that would be read as an exponent, digits and all. -/
def isExponentLike : Text → Bool
  | c :: d :: _ => (c == 'e' || c == 'E') && d.isDigit
  | _ => false

variable {u : Text}

/-- A unit that is written with an escape so that it does not read as the start of an exponent. -/
def IsBareExponent (u : Text) : Prop := ∃ c s, u = c :: s ∧ (c = 'e' ∨ c = 'E') ∧ (s = [] ∨ s.head? = some (.char '-'))

theorem writeUnit_cases (u : Text) :
    (∃ s, writeUnit u = "\\65 " ++ writeName s ∧ rereadUnit u = .char 'e' :: s) ∨
      ¬ IsBareExponent u ∧ writeUnit u = writeIdent u ∧ rereadUnit u = u := by
  cases u with
  | nil => exact .inr ⟨by simp [IsBareExponent], rfl, rfl⟩
  | cons c s =>
    by_cases h : (c = 'e' ∨ c = 'E') ∧ (s = [] ∨ s.head? = some (.char '-'))
    · exact .inl ⟨s, if_pos h, if_pos h⟩
    · refine .inr ⟨?_, if_neg h, if_neg h⟩
      rintro ⟨d, t, heq, hd⟩
      obtain ⟨rfl, rfl⟩ := List.cons.inj heq
      exact h hd

theorem takeName_writeUnit (u : Text) (hm : startsHash m = false) : takeName (writeUnit u ++ m) = (rereadUnit u, m) := by
  rcases writeUnit_cases u with ⟨s, hw, hr⟩ | ⟨-, hw, hr⟩
  · have he : takeName ("\\65 " ++ (writeName s ++ m)) =
        (.char 'e' :: (takeName (writeName s ++ m)).1, (takeName (writeName s ++ m)).2) :=
      takeName_cons_escape (by decide) rfl
    rw [hw, hr, List.append_assoc, he, takeName_writeName s hm]
  · rw [hw, hr, takeName_writeIdent u hm]

theorem startsIdent_writeUnit (hu : u ≠ []) (m : Text) : startsIdent (writeUnit u ++ m) = true := by
  rcases writeUnit_cases u with ⟨s, hw, -⟩ | ⟨-, hw, -⟩
  · rw [hw]
    rfl
  · rw [hw]
    exact startsIdent_writeIdent hu m

theorem startsDigit_of_startsIdent (h : startsIdent s = true) : startsDigit s = false ∧ startsPoint s = false := by
  cases s with
  | nil => exact ⟨rfl, rfl⟩
  | cons c s =>
    have out {d : CodePoint} (hn : isNameStart d = false) (hd : d ≠ '-') (he : d ≠ '\\') : c ≠ d := by
      rintro rfl
      rw [startsIdent_of_ne hd, hn, startsEscape_of_ne he] at h
      cases h
    refine ⟨Bool.eq_false_iff.2 fun hc => ?_, startsPoint_of_ne (out (by decide) (by decide) (by decide)) s⟩
    have hc : c.isDigit = true := hc
    refine out (isNameStart_of_isDigit hc) ?_ ?_ rfl
    all_goals
      rintro rfl
      exact absurd hc (by decide)

theorem takeExponent_of_ne {c : CodePoint} (h : c ≠ 'e' ∧ c ≠ 'E') (s : Text) : takeExponent (c :: s) = ([], c :: s) := by
  simp [takeExponent, h]

theorem takeExponent_eq_nil {c : CodePoint} (h : (c = 'e' ∨ c = 'E') → startsDigit (takeSign s).2 = false) :
    takeExponent (c :: s) = ([], c :: s) := by
  rw [takeExponent, if_neg]
  rintro ⟨hc, hd⟩
  have h := h hc
  cases ht : (takeSign s).2 with
  | nil =>
    rw [ht] at hd
    exact hd rfl
  | cons d t =>
    rw [ht] at h hd
    have h : d.isDigit = false := h
    simp [takeDigits, h] at hd

/-- Only a letter of an exponent with digits behind it would be taken for an exponent. -/
theorem takeExponent_writeUnit (h : isExponentLike u = false) (hu : u ≠ []) (m : Text) :
    takeExponent (writeUnit u ++ m) = ([], writeUnit u ++ m) := by
  rcases writeUnit_cases u with ⟨s, hw, -⟩ | ⟨hb, hw, -⟩
  · rw [hw]
    exact takeExponent_of_ne (by decide) _
  · rw [hw]
    cases u with
    | nil => exact absurd rfl hu
    | cons c s =>
      by_cases hc : c = 'e' ∨ c = 'E'
      · have hstart : isNameStart c = true := by rcases hc with rfl | rfl <;> decide
        rw [writeIdent_of_isNameStart hstart, List.cons_append]
        refine takeExponent_eq_nil fun _ => ?_
        cases s with
        | nil => exact absurd ⟨c, [], rfl, hc, .inl rfl⟩ hb
        | cons d s =>
          have hminus : d ≠ '-' := by
            rintro rfl
            exact hb ⟨c, _, rfl, hc, .inr rfl⟩
          have hdigit : d.isDigit = false := by
            rcases hc with rfl | rfl <;> exact h
          rw [writeName, List.flatMap_cons, List.append_assoc]
          rcases exists_writeNameChar_append d (s.flatMap writeNameChar ++ m) with ⟨t, ht, hd⟩ | ⟨t, ht⟩
          · have hplus : d ≠ '+' := by
              rintro rfl
              exact absurd hd (by decide)
            have hsign : takeSign (d :: t) = ([], d :: t) :=
              takeSign_append_of_not (.inl rfl) ⟨by simpa using hplus, by simpa using hminus⟩
            rw [ht, hsign]
            exact hdigit
          · rw [ht]
            rfl
      · have hne := not_or.1 hc
        rcases exists_writeIdent_append c s m with ⟨t, ht, -⟩ | ⟨t, ht⟩
        · rw [ht, takeExponent_of_ne hne]
        · rw [ht, takeExponent_of_ne (by decide)]

end Units

section Ranges

/-- What carries a range of characters on, or makes one of a single character. -/
def carriesRange : Text → Bool
  | '-' :: c :: _ => Text.isHexDigit c
  | c :: _ => Text.isHexDigit c || c == '?'
  | [] => false

theorem takeUpTo_append_of_not {p : CodePoint → Bool} {n : Nat} (hs : ∀ c ∈ s, p c = true) (hn : s.length ≤ n)
    (hm : m.head?.any p = false) : takeUpTo p n (s ++ m) = (s, m) := by
  induction s generalizing n with
  | nil =>
    cases n with
    | zero => cases m <;> rfl
    | succ n =>
      cases m with
      | nil => rfl
      | cons c m =>
        have hc : p c = false := hm
        simp [takeUpTo, hc]
  | cons c s ih =>
    cases n with
    | zero => simp at hn
    | succ n =>
      obtain ⟨hc, hs⟩ := List.forall_mem_cons.1 hs
      simp [takeUpTo, hc, ih hs (Nat.le_of_succ_le_succ hn)]

theorem hexOfNat_eq_if (n : Nat) : Text.hexOfNat n =
    (if n < 16 then [] else Text.hexOfNat (n / 16)) ++ [CodePoint.toUpper (.char (n % 16).digitChar)] := by
  unfold Text.hexOfNat Text.digits
  rw [Nat.toDigits_eq_if (by decide)]
  split
  · rename_i h
    rw [Nat.mod_eq_of_lt h]
    rfl
  · simp

theorem hexDigit?_digitChar {n : Nat} (h : n < 16) : Text.hexDigit? (CodePoint.toUpper (.char n.digitChar)) = some n := by
  interval_cases n <;> rfl

theorem isHexDigit_of_mem_hexOfNat (n : Nat) : ∀ c ∈ Text.hexOfNat n, Text.isHexDigit c = true := by
  induction n using Nat.strongRecOn with
  | ind n ih =>
    rw [hexOfNat_eq_if]
    refine List.forall_mem_append.2 ⟨?_, List.forall_mem_singleton.2 ?_⟩
    · split
      · exact List.forall_mem_nil _
      · exact ih _ (by omega)
    · rw [Text.isHexDigit, hexDigit?_digitChar (Nat.mod_lt n (by decide))]
      rfl

theorem digitsValue_hexOfNat (n : Nat) : Text.digitsValue 16 (Text.hexOfNat n) = n := by
  induction n using Nat.strongRecOn with
  | ind n ih =>
    rw [hexOfNat_eq_if, Text.digitsValue, List.foldl_append, ← Text.digitsValue]
    simp only [List.foldl_cons, List.foldl_nil, hexDigit?_digitChar (Nat.mod_lt n (by decide)), Option.getD_some]
    split
    · rename_i h
      simp [Text.digitsValue, Nat.mod_eq_of_lt h]
    · rw [ih _ (by omega)]
      omega

theorem hexOfNat_ne_nil (n : Nat) : Text.hexOfNat n ≠ [] := by
  rw [hexOfNat_eq_if]
  simp

theorem length_hexOfNat_le {n : Nat} (h : n < 16 ^ 6) : (Text.hexOfNat n).length ≤ 6 := by
  rw [Text.hexOfNat, Text.digits, List.length_map, List.length_map]
  exact (Nat.length_toDigits_le_iff (by decide) (by decide)).2 h

theorem of_carriesRange (h : carriesRange m = false) : m.head?.any Text.isHexDigit = false ∧
    m.head?.any (fun c => decide (c = .char '?')) = false ∧
    ∀ t : Text, m = .char '-' :: t → t.head?.any Text.isHexDigit = false := by
  unfold carriesRange at h
  split at h
  · refine ⟨rfl, rfl, fun t ht => ?_⟩
    obtain rfl := (List.cons.inj ht).2
    exact h
  · rename_i hne
    obtain ⟨hx, hq⟩ := Bool.or_eq_false_iff.1 h
    refine ⟨hx, by simpa using hq, fun t ht => ?_⟩
    obtain ⟨rfl, rfl⟩ := List.cons.inj ht
    rename_i t
    cases t with
    | nil => rfl
    | cons d t => exact (hne d t rfl rfl).elim
  · exact ⟨rfl, rfl, by simp⟩

/-- A range reads back where nothing carries it on. -/
theorem takeRange_write {low high : Nat} (hl : low < 16 ^ 6) (hh : high < 16 ^ 6) (hm : carriesRange m = false) :
    takeRange (Text.hexOfNat low ++ (if low = high then [] else .char '-' :: Text.hexOfNat high) ++ m) = (low, high, m) := by
  obtain ⟨hhex, hquery, hdash⟩ := of_carriesRange hm
  have hlow {t : Text} (ht : t.head?.any Text.isHexDigit = false) :
      takeUpTo Text.isHexDigit 6 (Text.hexOfNat low ++ t) = (Text.hexOfNat low, t) :=
    takeUpTo_append_of_not (isHexDigit_of_mem_hexOfNat low) (length_hexOfNat_le hl) ht
  have hnone {t : Text} (n : Nat) (ht : t.head?.any (fun c => decide (c = .char '?')) = false) :
      takeUpTo (fun c => decide (c = .char '?')) n t = ([], t) :=
    takeUpTo_append_of_not (s := []) (List.forall_mem_nil _) (Nat.zero_le n) ht
  split
  · rename_i he
    subst he
    rw [List.append_nil]
    simp only [takeRange, hlow hhex, hnone _ hquery, digitsValue_hexOfNat, ne_eq, not_true_eq_false, if_false]
    split
    · rename_i t
      have ht : takeUpTo Text.isHexDigit 6 t = ([], t) :=
        takeUpTo_append_of_not (s := []) (List.forall_mem_nil _) (Nat.zero_le 6) (hdash t rfl)
      simp [ht]
    · rfl
  · have hx : (CodePoint.char '-' :: (Text.hexOfNat high ++ m)).head?.any Text.isHexDigit = false := rfl
    have hmark : (CodePoint.char '-' :: (Text.hexOfNat high ++ m)).head?.any (fun c => decide (c = .char '?')) = false := rfl
    have hhigh := takeUpTo_append_of_not (isHexDigit_of_mem_hexOfNat high) (length_hexOfNat_le hh) hhex
    rw [List.append_assoc, List.cons_append]
    simp only [takeRange, hlow hx, hnone _ hmark, digitsValue_hexOfNat, hhigh, ne_eq, not_true_eq_false, if_false,
      hexOfNat_ne_nil, not_false_eq_true, if_true]

end Ranges

end StylePrune.Css
