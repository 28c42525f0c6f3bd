import StylePrune.Proofs.Json.Grammar
import StylePrune.Proofs.Table

/-!
What the reader makes of a text is what the grammar says, as long as no value stands too deep. A text is given up for its
depth only if it opens more arrays and objects than may stand in each other.
-/

set_option autoImplicit false

namespace StylePrune.Json

variable {s r t w : Text} {v : Json} {vs : List Json} {fs : List (Text × Json)} {c : CodePoint} {n k l : Nat}

/-! ## Words -/

theorem takeConstant?_append (h : (w, v) ∈ constants) (r : Text) : takeConstant? (w ++ r) = some (v, r) := by
  simp only [constants, List.mem_cons, Prod.mk.injEq, List.not_mem_nil, or_false] at h
  obtain ⟨rfl, rfl⟩ | ⟨rfl, rfl⟩ | ⟨rfl, rfl⟩ | ⟨rfl, rfl⟩ | ⟨rfl, rfl⟩ | ⟨rfl, rfl⟩ := h <;> rfl

theorem mem_constants_of_takeConstant? (h : takeConstant? s = some (v, r)) : ∃ w, (w, v) ∈ constants ∧ s = w ++ r := by
  obtain ⟨⟨w, v'⟩, hm, hw⟩ := List.exists_of_findSome?_eq_some h
  obtain ⟨r', hr, he⟩ := Option.map_eq_some_iff.1 hw
  obtain ⟨rfl, rfl⟩ := Prod.mk.inj he
  exact ⟨w, hm, Text.eq_append_of_after? hr⟩

/-- Neither space nor a mark of strings, arrays or objects. -/
def IsPlain (c : CodePoint) : Prop := isSpace c = false ∧ c ≠ ']' ∧ c ≠ '"' ∧ c ≠ '[' ∧ c ≠ '\x7b'

instance (c : CodePoint) : Decidable (IsPlain c) :=
  inferInstanceAs (Decidable (isSpace c = false ∧ c ≠ ']' ∧ c ≠ '"' ∧ c ≠ '[' ∧ c ≠ '\x7b'))

theorem isPlain_of_isDigit (h : c.isDigit = true) : IsPlain c := by
  have hne (d : Char) (hd : (CodePoint.char d).isDigit = false) : c ≠ .char d := by
    rintro rfl
    simp [hd] at h
  simp [IsPlain, isSpace, hne _ (show (CodePoint.char ' ').isDigit = false by decide), hne '\t' (by decide),
    hne '\n' (by decide), hne '\r' (by decide), hne ']' (by decide), hne '"' (by decide), hne '[' (by decide),
    hne '\x7b' (by decide)]

/-- A number begins with a digit, or with its sign and a digit. -/
theorem Numeral.head (h : Numeral w v) : (∃ c t, w = c :: t ∧ c.isDigit = true) ∨
    ∃ c t, w = .char '-' :: c :: t ∧ c.isDigit = true := by
  have signed {sign whole : Text} (hs : sign = [] ∨ sign = [.char '-']) (hw : IsWhole whole) (t : Text) :
      (∃ c u, sign ++ whole ++ t = c :: u ∧ c.isDigit = true) ∨
        ∃ c u, sign ++ whole ++ t = .char '-' :: c :: u ∧ c.isDigit = true := by
    obtain ⟨c, u, rfl, hc⟩ := hw.head
    obtain rfl | rfl := hs
    · exact .inl ⟨c, u ++ t, rfl, hc⟩
    · exact .inr ⟨c, u ++ t, rfl, hc⟩
  cases h with
  | int hs hw => simpa using signed hs hw []
  | float hs hw => simpa only [List.append_assoc] using signed hs hw _

theorem Numeral.exists_cons (h : Numeral w v) : ∃ c t, w = c :: t ∧ IsPlain c := by
  obtain ⟨c, t, rfl, hc⟩ | ⟨c, t, rfl, -⟩ := h.head
  · exact ⟨c, t, rfl, isPlain_of_isDigit hc⟩
  · exact ⟨_, _, rfl, by decide⟩

/-- A word begins with no number. -/
theorem word_head (h : (w, v) ∈ constants) : ∃ c d t, w = c :: d :: t ∧ IsPlain c ∧ c.isDigit = false ∧
    (c = '-' → d.isDigit = false) := by
  simp only [constants, List.mem_cons, Prod.mk.injEq, List.not_mem_nil, or_false] at h
  obtain ⟨rfl, rfl⟩ | ⟨rfl, rfl⟩ | ⟨rfl, rfl⟩ | ⟨rfl, rfl⟩ | ⟨rfl, rfl⟩ | ⟨rfl, rfl⟩ := h <;>
    exact ⟨_, _, _, rfl, by decide, by decide, by decide⟩

theorem takeConstant?_of_numeral (h : Numeral w v) (r : Text) : takeConstant? (w ++ r) = none := by
  cases hc : takeConstant? (w ++ r) with
  | none => rfl
  | some x =>
    obtain ⟨w', hm, hw⟩ := mem_constants_of_takeConstant? hc
    obtain ⟨c, d, t, rfl, -, hdigit, hminus⟩ := word_head hm
    obtain ⟨e, u, rfl, he⟩ | ⟨e, u, rfl, he⟩ := h.head <;> simp_all

theorem takeValue_of_isPlain (hc : IsPlain c) : takeValue (n + 1) k (c :: s) = match takeConstant? (c :: s) with
    | some t => .ok t
    | none => takeNumber (c :: s) := by
  obtain ⟨-, -, hq, ha, ho⟩ := hc
  unfold takeValue
  split
  · simp_all
  · simp_all
  · simp_all
  · rfl

/-! ## From the reader to the grammar -/

mutual
theorem value_of_takeValue (n : Nat) {k : Nat} {s r : Text} {v : Json} (h : takeValue n k s = .ok (v, r))
    (hr : Follows r) : Value k s v r := by
  cases n with
  | zero => simp [takeValue] at h
  | succ n =>
    unfold takeValue at h
    split at h
    · rename_i s
      cases hs : takeString? (s.length + 1) s with
      | none => simp [hs, orIllFormed, Except.map] at h
      | some x =>
        simp [hs, orIllFormed, Except.map] at h
        obtain ⟨rfl, rfl⟩ := h
        exact .string (quoted_of_takeString? hs)
    · rename_i s
      obtain _ | k := k
      · cases h
      have hspace := space_skipSpace s
      dsimp only at h
      split at h
      · rename_i hs
        obtain ⟨rfl, rfl⟩ := Prod.mk.inj (Except.ok.inj h)
        exact .emptyArray (hs ▸ hspace)
      · cases hs : takeItems n k (skipSpace s) with
        | error f => simp [hs, Except.map] at h
        | ok x =>
          simp [hs, Except.map] at h
          obtain ⟨rfl, rfl⟩ := h
          exact .array hspace (items_of_takeItems n hs)
    · rename_i s
      obtain _ | k := k
      · cases h
      have hspace := space_skipSpace s
      dsimp only at h
      split at h
      · rename_i hs
        obtain ⟨rfl, rfl⟩ := Prod.mk.inj (Except.ok.inj h)
        exact .emptyObject (hs ▸ hspace)
      · cases hs : takeFields n k (skipSpace s) with
        | error f => simp [hs, Except.map] at h
        | ok x =>
          simp [hs, Except.map] at h
          obtain ⟨rfl, rfl⟩ := h
          exact .object hspace (fields_of_takeFields n hs)
    · split at h
      · rename_i hs
        obtain rfl := Except.ok.inj h
        obtain ⟨w, hw, rfl⟩ := mem_constants_of_takeConstant? hs
        exact .word hw
      · obtain ⟨w, hw, rfl⟩ := numeral_of_takeNumber h
        exact .number hw hr

theorem items_of_takeItems (n : Nat) {k : Nat} {s r : Text} {vs : List Json} (h : takeItems n k s = .ok (vs, r)) :
    Items k s vs r := by
  cases n with
  | zero => simp [takeItems] at h
  | succ n =>
    unfold takeItems at h
    split at h
    · cases h
    rename_i v t hv
    have hspace := space_skipSpace t
    split at h
    · rename_i hu
      rw [hu] at hspace
      obtain ⟨rfl, rfl⟩ := Prod.mk.inj (Except.ok.inj h)
      exact .last (value_of_takeValue n hv (hspace.follows (by simp [Follows]))) hspace
    · rename_i u hu
      rw [hu] at hspace
      cases hs : takeItems n k (skipSpace u) with
      | error f => simp [hs, Except.map] at h
      | ok x =>
        simp [hs, Except.map] at h
        obtain ⟨rfl, rfl⟩ := h
        exact .next (value_of_takeValue n hv (hspace.follows (by simp [Follows]))) hspace (space_skipSpace u)
          (items_of_takeItems n hs)
    · cases h

theorem fields_of_takeFields (n : Nat) {k : Nat} {s r : Text} {fs : List (Text × Json)}
    (h : takeFields n k s = .ok (fs, r)) : Fields k s fs r := by
  cases n with
  | zero => simp [takeFields] at h
  | succ n =>
    unfold takeFields at h
    split at h
    · rename_i s
      split at h
      · cases h
      rename_i name t hname
      have hcolon := space_skipSpace t
      split at h
      · rename_i u hu
        rw [hu] at hcolon
        split at h
        · cases h
        rename_i v x hv
        have hspace := space_skipSpace x
        split at h
        · rename_i hy
          rw [hy] at hspace
          obtain ⟨rfl, rfl⟩ := Prod.mk.inj (Except.ok.inj h)
          exact .last (quoted_of_takeString? hname) hcolon (space_skipSpace u)
            (value_of_takeValue n hv (hspace.follows (by simp [Follows]))) hspace
        · rename_i y hy
          rw [hy] at hspace
          cases hs : takeFields n k (skipSpace y) with
          | error f => simp [hs, Except.map] at h
          | ok x =>
            simp [hs, Except.map] at h
            obtain ⟨rfl, rfl⟩ := h
            exact .next (quoted_of_takeString? hname) hcolon (space_skipSpace u)
              (value_of_takeValue n hv (hspace.follows (by simp [Follows]))) hspace (space_skipSpace y)
              (fields_of_takeFields n hs)
        · cases h
      · cases h
    · cases h
end

/-! ## From the grammar to the reader -/

theorem Space.rest (h : Space s (c :: r)) : r <:+ s := (List.suffix_cons c r).trans h.suffix

mutual
/-- A value takes something of its text. -/
theorem Value.exists_cons {l : Nat} {s r : Text} {v : Json} :
    Value l s v r → ∃ c t, s = c :: t ∧ r <:+ t ∧ isSpace c = false ∧ c ≠ ']'
  | .string h => ⟨_, _, rfl, h.suffix, by decide, by decide⟩
  | .word h => by
    obtain ⟨c, d, t, rfl, hc, -⟩ := word_head h
    exact ⟨c, _, rfl, List.suffix_append (d :: t) _, hc.1, hc.2.1⟩
  | .number h _ => by
    obtain ⟨c, t, rfl, hc⟩ := h.exists_cons
    exact ⟨c, _, rfl, List.suffix_append t _, hc.1, hc.2.1⟩
  | .emptyArray hs => ⟨_, _, rfl, hs.rest, by decide, by decide⟩
  | .array hs h => by
    obtain ⟨c, t, rfl, hr, -⟩ := h.exists_cons
    exact ⟨_, _, rfl, hr.trans hs.rest, by decide, by decide⟩
  | .emptyObject hs => ⟨_, _, rfl, hs.rest, by decide, by decide⟩
  | .object hs h => by
    obtain ⟨t, rfl, hr⟩ := h.exists_cons
    exact ⟨_, _, rfl, hr.trans hs.rest, by decide, by decide⟩

theorem Items.exists_cons {l : Nat} {s r : Text} {vs : List Json} :
    Items l s vs r → ∃ c t, s = c :: t ∧ r <:+ t ∧ isSpace c = false ∧ c ≠ ']'
  | .last hv ht => by
    obtain ⟨c, u, rfl, hu, hc⟩ := hv.exists_cons
    exact ⟨c, u, rfl, ht.rest.trans hu, hc⟩
  | .next hv ht hu h => by
    obtain ⟨c, x, rfl, hx, hc⟩ := hv.exists_cons
    obtain ⟨d, y, rfl, hy, -⟩ := h.exists_cons
    exact ⟨c, x, rfl, (hy.trans hu.rest).trans (ht.rest.trans hx), hc⟩

theorem Fields.exists_cons {l : Nat} {s r : Text} {fs : List (Text × Json)} :
    Fields l s fs r → ∃ t, s = .char '"' :: t ∧ r <:+ t
  | .last hn ht hu hv hx => by
    obtain ⟨c, y, rfl, hy, -⟩ := hv.exists_cons
    exact ⟨_, rfl, (hx.rest.trans hy).trans (hu.rest.trans (ht.rest.trans hn.suffix))⟩
  | .next hn ht hu hv hx hy h => by
    obtain ⟨c, z, rfl, hz, -⟩ := hv.exists_cons
    obtain ⟨x, rfl, hr⟩ := h.exists_cons
    exact ⟨_, rfl, ((hr.trans hy.rest).trans (hx.rest.trans hz)).trans (hu.rest.trans (ht.rest.trans hn.suffix))⟩
end

/-- What is read is right, or is given up for its depth. -/
def Reads {α : Type} (x : Except Fault α) (a : α) (isDeep : Prop) : Prop :=
  x = .ok a ∨ isDeep ∧ ∃ t, x = .error (.tooDeep t)

theorem Reads.map {α β : Type} {x : Except Fault α} {a : α} (h : Reads x a (k < l)) (f : α → β) :
    Reads (x.map f) (f a) (k < l) := by
  obtain rfl | ⟨hl, t, rfl⟩ := h
  · exact .inl rfl
  · exact .inr ⟨hl, t, rfl⟩

theorem Reads.succ {α : Type} {x : Except Fault α} {a : α} (h : Reads x a (k < l)) : Reads x a (k + 1 < l + 1) := by
  simpa [Reads] using h

mutual
theorem Value.reads {l n k : Nat} {s r : Text} {v : Json} :
    Value l s v r → 2 * s.length < n → Reads (takeValue n k s) (v, r) (k < l)
  | .string h, hn => by
    obtain ⟨n, rfl⟩ : ∃ m, n = m + 1 := ⟨n - 1, by omega⟩
    simp [Reads, takeValue, takeString?_of_quoted h (Nat.le_succ _), orIllFormed, Except.map]
  | .word h, hn => by
    obtain ⟨n, rfl⟩ : ∃ m, n = m + 1 := ⟨n - 1, by omega⟩
    have htake := takeConstant?_append h r
    obtain ⟨c, d, t, rfl, hc, -⟩ := word_head h
    exact .inl (by rw [List.cons_append, takeValue_of_isPlain hc, ← List.cons_append, htake])
  | .number h hr, hn => by
    obtain ⟨n, rfl⟩ : ∃ m, n = m + 1 := ⟨n - 1, by omega⟩
    have hnone := takeConstant?_of_numeral h r
    have htake := takeNumber_append h hr
    obtain ⟨c, t, rfl, hc⟩ := h.exists_cons
    rw [List.cons_append] at hnone htake ⊢
    exact .inl (by rw [takeValue_of_isPlain hc, hnone, htake])
  | .emptyArray hs, hn => by
    obtain ⟨n, rfl⟩ : ∃ m, n = m + 1 := ⟨n - 1, by omega⟩
    obtain _ | k := k
    · exact .inr ⟨Nat.succ_pos _, .array, rfl⟩
    · exact .inl (by rw [takeValue, hs.skipSpace_cons (by decide)]; rfl)
  | .array hs h, hn => by
    obtain ⟨n, rfl⟩ : ∃ m, n = m + 1 := ⟨n - 1, by omega⟩
    obtain _ | k := k
    · exact .inr ⟨Nat.succ_pos _, .array, rfl⟩
    · have hlen := hs.suffix.length_le
      have hread := h.reads (n := n) (k := k) (by simp at hn; omega)
      obtain ⟨c, t, rfl, -, hc, hb⟩ := h.exists_cons
      rw [takeValue, hs.skipSpace_cons hc]
      split
      · simp_all
      · exact (hread.map _).succ
  | .emptyObject hs, hn => by
    obtain ⟨n, rfl⟩ : ∃ m, n = m + 1 := ⟨n - 1, by omega⟩
    obtain _ | k := k
    · exact .inr ⟨Nat.succ_pos _, .object, rfl⟩
    · exact .inl (by rw [takeValue, hs.skipSpace_cons (by decide)]; rfl)
  | .object hs h, hn => by
    obtain ⟨n, rfl⟩ : ∃ m, n = m + 1 := ⟨n - 1, by omega⟩
    obtain _ | k := k
    · exact .inr ⟨Nat.succ_pos _, .object, rfl⟩
    · have hlen := hs.suffix.length_le
      have hread := h.reads (n := n) (k := k) (by simp at hn; omega)
      obtain ⟨t, rfl, -⟩ := h.exists_cons
      rw [takeValue, hs.skipSpace_cons (by decide)]
      exact (hread.map _).succ

theorem Items.reads {l n k : Nat} {s r : Text} {vs : List Json} :
    Items l s vs r → 2 * s.length + 1 < n → Reads (takeItems n k s) (vs, r) (k < l)
  | .last hv ht, hn => by
    obtain ⟨n, rfl⟩ : ∃ m, n = m + 1 := ⟨n - 1, by omega⟩
    obtain hread | ⟨hl, t, hread⟩ := hv.reads (n := n) (k := k) (by omega)
    · exact .inl (by simp only [takeItems, hread, ht.skipSpace_cons (show isSpace (.char ']') = false by decide)])
    · exact .inr ⟨hl, t, by simp only [takeItems, hread]⟩
  | .next hv ht hu h, hn => by
    obtain ⟨n, rfl⟩ : ∃ m, n = m + 1 := ⟨n - 1, by omega⟩
    have hcomma := ht.skipSpace_cons (show isSpace (.char ',') = false by decide)
    obtain hread | ⟨hl, x, hread⟩ := hv.reads (n := n) (k := k) (by omega)
    · obtain ⟨c, x, rfl, hx, -⟩ := hv.exists_cons
      have hlen := (hu.suffix.trans (ht.rest.trans hx)).length_le
      have hrest := h.reads (n := n) (k := k) (by simp at hn; omega)
      obtain ⟨d, y, rfl, -, hd, -⟩ := h.exists_cons
      simp only [takeItems, hread, hcomma, hu.skipSpace_cons hd]
      exact hrest.map _
    · exact .inr ⟨hl, x, by simp only [takeItems, hread]⟩

theorem Fields.reads {l n k : Nat} {s r : Text} {fs : List (Text × Json)} :
    Fields l s fs r → 2 * s.length < n → Reads (takeFields n k s) (fs, r) (k < l)
  | .last hn ht hu hv hx, hm => by
    obtain ⟨n, rfl⟩ : ∃ m, n = m + 1 := ⟨n - 1, by omega⟩
    have hname := takeString?_of_quoted hn (Nat.le_succ _)
    have hcolon := ht.skipSpace_cons (show isSpace (.char ':') = false by decide)
    have hbrace := hx.skipSpace_cons (show isSpace (.char '\x7d') = false by decide)
    have hlen := (hu.suffix.trans (ht.rest.trans hn.suffix)).length_le
    have hvalue := hv.reads (n := n) (k := k) (by simp at hm; omega)
    obtain ⟨c, y, rfl, -, hc, -⟩ := hv.exists_cons
    obtain hread | ⟨hl, y, hread⟩ := hvalue
    · exact .inl (by simp only [takeFields, hname, hcolon, hu.skipSpace_cons hc, hread, hbrace])
    · exact .inr ⟨hl, y, by simp only [takeFields, hname, hcolon, hu.skipSpace_cons hc, hread]⟩
  | .next hn ht hu hv hx hy h, hm => by
    obtain ⟨n, rfl⟩ : ∃ m, n = m + 1 := ⟨n - 1, by omega⟩
    have hname := takeString?_of_quoted hn (Nat.le_succ _)
    have hcolon := ht.skipSpace_cons (show isSpace (.char ':') = false by decide)
    have hcomma := hx.skipSpace_cons (show isSpace (.char ',') = false by decide)
    have hsuffix := hu.suffix.trans (ht.rest.trans hn.suffix)
    have hlen := hsuffix.length_le
    have hvalue := hv.reads (n := n) (k := k) (by simp at hm; omega)
    obtain ⟨c, z, rfl, hz, hc, -⟩ := hv.exists_cons
    have hlen' := (hy.suffix.trans (hx.rest.trans hz)).length_le
    have hrest := h.reads (n := n) (k := k) (by simp at hm hlen; omega)
    obtain ⟨w, rfl, -⟩ := h.exists_cons
    obtain hread | ⟨hl, y, hread⟩ := hvalue
    · simp only [takeFields, hname, hcolon, hu.skipSpace_cons hc, hread, hcomma, hy.skipSpace_cons
        (show isSpace (.char '"') = false by decide)]
      exact hrest.map _
    · exact .inr ⟨hl, y, by simp only [takeFields, hname, hcolon, hu.skipSpace_cons hc, hread]⟩
end

/-! ## Depth -/

/-- The brackets and braces that open in a text, those in its strings included. -/
def openings (s : Text) : Nat := s.countP fun c : CodePoint => c = '[' || c = '\x7b'

theorem openings_le_of_suffix (h : r <:+ s) : openings r ≤ openings s := h.sublist.countP_le

theorem value_rest_suffix (hv : takeValue n k s = .ok (v, t)) (ht : Space t (c :: r)) (hc : Follows (c :: r)) :
    r <:+ s := by
  obtain ⟨d, u, rfl, hu, -⟩ := (value_of_takeValue n hv (ht.follows hc)).exists_cons
  exact ht.rest.trans (hu.trans (List.suffix_cons _ _))

mutual
/-- What is given up for its depth opens more than may be open. -/
theorem openings_of_takeValue (n : Nat) {k : Nat} {s : Text} {t : TooDeep}
    (h : takeValue n k s = .error (.tooDeep t)) : k < openings s := by
  cases n with
  | zero => simp [takeValue] at h
  | succ n =>
    unfold takeValue at h
    split at h
    · rename_i s
      cases hs : takeString? (s.length + 1) s <;> simp [hs, orIllFormed, Except.map] at h
    · rename_i s
      obtain _ | k := k
      · simp [openings]
      dsimp only at h
      split at h
      · cases h
      · cases hs : takeItems n k (skipSpace s) with
        | ok x => simp [hs, Except.map] at h
        | error f =>
          simp [hs, Except.map] at h
          have hle := openings_le_of_suffix (space_skipSpace s).suffix
          have hlt := openings_of_takeItems n (h ▸ hs)
          simp [openings] at hle hlt ⊢
          omega
    · rename_i s
      obtain _ | k := k
      · simp [openings]
      dsimp only at h
      split at h
      · cases h
      · cases hs : takeFields n k (skipSpace s) with
        | ok x => simp [hs, Except.map] at h
        | error f =>
          simp [hs, Except.map] at h
          have hle := openings_le_of_suffix (space_skipSpace s).suffix
          have hlt := openings_of_takeFields n (h ▸ hs)
          simp [openings] at hle hlt ⊢
          omega
    · split at h
      · cases h
      · exact absurd h (takeNumber_ne_tooDeep _ _)

theorem openings_of_takeItems (n : Nat) {k : Nat} {s : Text} {t : TooDeep}
    (h : takeItems n k s = .error (.tooDeep t)) : k < openings s := by
  cases n with
  | zero => simp [takeItems] at h
  | succ n =>
    unfold takeItems at h
    split at h
    · rename_i f hv
      obtain rfl := Except.error.inj h
      exact openings_of_takeValue n hv
    rename_i v t hv
    have hspace := space_skipSpace t
    split at h
    · cases h
    · rename_i u hu
      rw [hu] at hspace
      cases hs : takeItems n k (skipSpace u) with
      | ok x => simp [hs, Except.map] at h
      | error f =>
        simp [hs, Except.map] at h
        have hrest := (space_skipSpace u).suffix.trans (value_rest_suffix hv hspace (by simp [Follows]))
        exact (openings_of_takeItems n (h ▸ hs)).trans_le (openings_le_of_suffix hrest)
    · cases h

theorem openings_of_takeFields (n : Nat) {k : Nat} {s : Text} {t : TooDeep}
    (h : takeFields n k s = .error (.tooDeep t)) : k < openings s := by
  cases n with
  | zero => simp [takeFields] at h
  | succ n =>
    unfold takeFields at h
    split at h
    · rename_i s
      split at h
      · cases h
      rename_i name t hname
      have hcolon := space_skipSpace t
      split at h
      · rename_i u hu
        rw [hu] at hcolon
        have hrest := (space_skipSpace u).suffix.trans (hcolon.rest.trans
          ((quoted_of_takeString? hname).suffix.trans (List.suffix_cons (.char '"') s)))
        split at h
        · rename_i f hv
          obtain rfl := Except.error.inj h
          exact (openings_of_takeValue n hv).trans_le (openings_le_of_suffix hrest)
        rename_i v x hv
        have hspace := space_skipSpace x
        split at h
        · cases h
        · rename_i y hy
          rw [hy] at hspace
          cases hs : takeFields n k (skipSpace y) with
          | ok x => simp [hs, Except.map] at h
          | error f =>
            simp [hs, Except.map] at h
            have hrest' := (space_skipSpace y).suffix.trans (value_rest_suffix hv hspace (by simp [Follows]))
            exact (openings_of_takeFields n (h ▸ hs)).trans_le (openings_le_of_suffix (hrest'.trans hrest))
        · cases h
      · cases h
    · cases h
end

/-- A text that only opens arrays is given up. -/
theorem takeValue_replicate (h : 2 * k + 1 ≤ n) (r : Text) :
    takeValue n k (List.replicate (k + 1) (.char '[') ++ r) = .error (.tooDeep .array) := by
  induction k generalizing n with
  | zero =>
    obtain ⟨n, rfl⟩ : ∃ m, n = m + 1 := ⟨n - 1, by omega⟩
    rfl
  | succ k ih =>
    obtain ⟨n, rfl⟩ : ∃ m, n = m + 2 := ⟨n - 2, by omega⟩
    have hitems : takeItems (n + 1) k (List.replicate (k + 1) (.char '[') ++ r) = .error (.tooDeep .array) := by
      rw [takeItems, ih (by omega)]
    change Except.map _ (takeItems (n + 1) k (List.replicate (k + 1) (.char '[') ++ r)) = _
    rw [hitems]
    rfl

/-! ## Documents -/

/-- A document is read, unless it is given up for its depth. -/
theorem Document.reads (h : Document l s v) : Reads (parse s) v (maxNesting < l) := by
  obtain ⟨t, r, hs, hv, hr⟩ := h
  have hlen := hs.suffix.length_le
  have hread := hv.reads (n := 2 * s.length + 1) (k := maxNesting) (by omega)
  obtain ⟨c, u, rfl, -, hc, -⟩ := hv.exists_cons
  have hend : skipSpace r = [] := hr.skipSpace_eq
  rw [parse, hs.skipSpace_cons hc]
  obtain hread | ⟨hl, d, hread⟩ := hread
  · exact .inl (by simp [hread, hend])
  · exact .inr ⟨hl, d, by simp [hread]⟩

/-- What is read is what the text says, and all texts of no greater depth are read. -/
theorem parse_eq_ok_iff : parse s = .ok v ↔ Document maxNesting s v := by
  constructor
  · intro h
    unfold parse at h
    split at h
    · cases h
    rename_i w r hv
    split at h
    · rename_i hr
      obtain rfl := Except.ok.inj h
      have hspace : Space r [] := hr ▸ space_skipSpace r
      exact ⟨_, r, space_skipSpace s, value_of_takeValue _ hv (hspace.follows follows_nil), hspace⟩
    · cases h
  · intro h
    exact h.reads.resolve_right fun hl => Nat.lt_irrefl _ hl.1

theorem openings_of_parse {t : TooDeep} (h : parse s = .error (.tooDeep t)) : maxNesting < openings s := by
  unfold parse at h
  split at h
  · rename_i f hv
    obtain rfl := Except.error.inj h
    exact (openings_of_takeValue _ hv).trans_le (openings_le_of_suffix (space_skipSpace s).suffix)
  · split at h <;> cases h

theorem parse_replicate (r : Text) :
    parse (List.replicate (maxNesting + 1) (.char '[') ++ r) = .error (.tooDeep .array) := by
  have hspace : skipSpace (List.replicate (maxNesting + 1) (.char '[') ++ r) =
      List.replicate (maxNesting + 1) (.char '[') ++ r := by
    rw [List.replicate_succ, List.cons_append, skipSpace, List.dropWhile_cons_of_neg (by decide)]
  rw [parse, hspace, takeValue_replicate (by simp; omega)]

/-- The values of fields are values themselves. -/
theorem Fields.exists_value {l : Nat} {s r : Text} {fs : List (Text × Json)} :
    Fields l s fs r → ∀ e ∈ fs, ∃ t u, Value l t e.2 u
  | .last _ _ _ hv _ => by simpa using ⟨_, _, hv⟩
  | .next _ _ _ hv _ _ h => List.forall_mem_cons.2 ⟨⟨_, _, hv⟩, h.exists_value⟩

/-- No name stands twice in an object, whatever the text says. -/
theorem Value.object_fields (h : Value l s (.object fs) r) :
    (fs.map Prod.fst).Nodup ∧ ∀ e ∈ fs, ∃ k t u, Value k t e.2 u := by
  cases h with
  | word h => simp [constants] at h
  | number h => cases h
  | emptyObject => simp
  | object _ h =>
    refine ⟨(Table.ofList _).nodup, fun e he => ?_⟩
    obtain ⟨t, u, hv⟩ := h.exists_value e (Table.mem_of_mem_ofList he)
    exact ⟨_, t, u, hv⟩

end StylePrune.Json
