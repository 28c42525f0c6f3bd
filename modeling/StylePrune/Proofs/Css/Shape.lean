import Mathlib
import StylePrune.Proofs.Css.Leaves

/-!
The tokens behind an eligible selector. Eligibility is decided on the written and normalized text; as
long as that text holds no blanks that the reader takes for parts of names, the tokens are those of a
safe shape.
-/

set_option autoImplicit false

namespace StylePrune.Css

def Component.isWhitespace : Component → Bool
  | .leaf _ (.whitespace _) => true
  | _ => false

/-- Components without the whitespace at their ends. -/
def trimSpace (cs : List Component) : List Component :=
  ((cs.dropWhile Component.isWhitespace).reverse.dropWhile Component.isWhitespace).reverse

/-- The tokens of a tag, a class, an id, a tag with a class or a tag with an id, all names plain, and
what they spell. -/
inductive SafeShape : List Component → Text → Prop
  | tag {p : Position} {n : Text} (hn : Selector.isPlainIdent n = true) : SafeShape [.leaf p (.ident n)] n
  | class_ {p q : Position} {n : Text} (hn : Selector.isPlainIdent n = true) :
    SafeShape [.leaf p (.literal "."), .leaf q (.ident n)] ('.' :: n)
  | id {p : Position} {n : Text} (hn : Selector.isPlainIdent n = true) :
    SafeShape [.leaf p (.hash n true)] ('#' :: n)
  | tagClass {o p q : Position} {m n : Text} (hm : Selector.isPlainIdent m = true)
    (hn : Selector.isPlainIdent n = true) :
    SafeShape [.leaf o (.ident m), .leaf p (.literal "."), .leaf q (.ident n)] (m ++ CodePoint.char '.' :: n)
  | tagId {o p : Position} {m n : Text} (hm : Selector.isPlainIdent m = true)
    (hn : Selector.isPlainIdent n = true) :
    SafeShape [.leaf o (.ident m), .leaf p (.hash n true)] (m ++ CodePoint.char '#' :: n)

/-- The characters of safe shapes. -/
def isShapeChar (c : CodePoint) : Bool := c.isAlphanum || c == '_' || c == '-' || c == '.' || c == '#'

/-- A component that writes as this text, which holds neither quotes nor brackets nor escapes. -/
inductive Plain : Component → Text → Prop
  | space {p : Position} {s : Text} (hs : s ≠ []) (h : ∀ c ∈ s, isSpace c = true) :
    Plain (.leaf p (.whitespace s)) s
  | ident {p : Position} {n : Text} (hn : n ≠ []) (h : ∀ c ∈ n, isNameChar c = true) :
    Plain (.leaf p (.ident n)) n
  | hash {p : Position} {n : Text} {isIdent : Bool} (h : ∀ c ∈ n, isNameChar c = true)
    (hi : ∀ c ∈ n.head?, isNameStart c = true → isIdent = true) :
    Plain (.leaf p (.hash n isIdent)) ('#' :: n)
  | number {p : Position} {r : Text} (hr : StartsNumber r) (h : ∀ c ∈ r, isSpace c = false) :
    Plain (.leaf p (.number r)) r
  | dimension {p : Position} {r u : Text} (hr : StartsNumber r) (h : ∀ c ∈ r ++ u, isSpace c = false) :
    Plain (.leaf p (.dimension r u)) (r ++ u)
  | mark {p : Position} {c : CodePoint} (h : c = '.' ∨ c = '#' ∨ c = '-') : Plain (.leaf p (.literal [c])) [c]

theorem Plain.ne_nil {x : Component} {w : Text} (h : Plain x w) : w ≠ [] := by
  have number {r : Text} (hr : StartsNumber r) : r ≠ [] := by
    rintro rfl
    cases hr
  cases h with
  | space hs => exact hs
  | ident hn => exact hn
  | hash => simp
  | number hr => exact number hr
  | dimension hr => simp [number hr]
  | mark => simp

theorem mem_writeNameChar_of_not {c : CodePoint} (h : isNameChar c = false) : CodePoint.char '\\' ∈ writeNameChar c := by
  unfold writeNameChar escapeNewline?
  rw [if_neg (by simp [h])]
  repeat' split
  all_goals simp [Text.ofString]

theorem mem_writeNameStart_of_not {c : CodePoint} (h : isNameStart c = false) : CodePoint.char '\\' ∈ writeNameStart c := by
  unfold writeNameStart escapeNewline?
  rw [if_neg (by simp [h])]
  repeat' split
  all_goals simp [Text.ofString]

/-- A name that is written without escapes is written as it is. -/
theorem writeName_of_unescaped {n : Text} (h : CodePoint.char '\\' ∉ writeName n) :
    writeName n = n ∧ ∀ c ∈ n, isNameChar c = true := by
  induction n with
  | nil => simp [writeName]
  | cons c n ih =>
    simp only [writeName, List.flatMap_cons, List.mem_append, not_or] at h ih ⊢
    have hc : isNameChar c = true := by
      rw [← Bool.not_eq_false]
      exact fun hc => h.1 (mem_writeNameChar_of_not hc)
    obtain ⟨hw, hn⟩ := ih h.2
    refine ⟨by simp [writeNameChar, hc, hw], fun d hd => ?_⟩
    rcases List.mem_cons.1 hd with rfl | hd
    · exact hc
    · exact hn d hd

theorem isNameChar_of_isNameStart {c : CodePoint} (h : isNameStart c = true) : isNameChar c = true := by
  simp [isNameChar, h]

theorem writeIdentBody_of_unescaped {n : Text} (h : CodePoint.char '\\' ∉ writeIdentBody n) :
    writeIdentBody n = n ∧ ∀ c ∈ n, isNameChar c = true := by
  cases n with
  | nil => simp [writeIdentBody]
  | cons c n =>
    simp only [writeIdentBody, List.mem_append, not_or] at h ⊢
    have hc : isNameStart c = true := by
      rw [← Bool.not_eq_false]
      exact fun hc => h.1 (mem_writeNameStart_of_not hc)
    obtain ⟨hw, hn⟩ := writeName_of_unescaped h.2
    refine ⟨by simp [writeNameStart, hc, hw], fun d hd => ?_⟩
    rcases List.mem_cons.1 hd with rfl | hd
    · exact isNameChar_of_isNameStart hc
    · exact hn d hd

theorem writeIdent_of_unescaped {n : Text} (h : CodePoint.char '\\' ∉ writeIdent n) :
    writeIdent n = n ∧ ∀ c ∈ n, isNameChar c = true := by
  have dash : isNameChar '-' = true := by decide
  unfold writeIdent at h ⊢
  split at h
  · simp at h
  · rename_i s
    simp only [List.mem_cons, not_or] at h
    obtain ⟨hw, hn⟩ := writeName_of_unescaped h.2.2
    exact ⟨by simp [hw], by simpa [dash] using hn⟩
  · rename_i s _ _
    simp only [List.mem_cons, not_or] at h
    obtain ⟨hw, hn⟩ := writeIdentBody_of_unescaped h.2
    exact ⟨by simp [hw], by simpa [dash] using hn⟩
  · exact writeIdentBody_of_unescaped h

theorem toNat_of_isDigit {c : CodePoint} (h : c.isDigit = true) : 0x30 ≤ c.toNat ∧ c.toNat ≤ 0x39 := by
  cases c with
  | surrogate n => cases h
  | char d =>
    simpa [CodePoint.toNat, CodePoint.isDigit, CodePoint.char?, Char.isDigit, UInt32.le_iff_toNat_le] using h

theorem toNat_of_isAlpha {c : CodePoint} (h : c.isAlpha = true) :
    0x41 ≤ c.toNat ∧ c.toNat ≤ 0x5A ∨ 0x61 ≤ c.toNat ∧ c.toNat ≤ 0x7A := by
  cases c with
  | surrogate n => cases h
  | char d =>
    simpa [CodePoint.toNat, CodePoint.isAlpha, CodePoint.char?, Char.isAlpha, Char.isUpper, Char.isLower,
      UInt32.le_iff_toNat_le] using h

theorem toNat_of_isAlphanum {c : CodePoint} (h : c.isAlphanum = true) : 0x30 ≤ c.toNat ∧ c.toNat < 0x80 := by
  simp only [CodePoint.isAlphanum, Bool.or_eq_true] at h
  rcases h with h | h
  · have := toNat_of_isAlpha h
    omega
  · have := toNat_of_isDigit h
    omega

theorem isBlank_of_isShapeChar {c : CodePoint} (h : isShapeChar c = true) : Text.isBlank c = false := by
  simp only [isShapeChar, Bool.or_eq_true, beq_iff_eq] at h
  rcases h with (((h | rfl) | rfl) | rfl) | rfl
  · have := toNat_of_isAlphanum h
    simp [Text.isBlank]
    omega
  all_goals decide

theorem isBlank_of_isSpace {c : CodePoint} (h : isSpace c = true) : Text.isBlank c = true := by
  simp only [isSpace, Bool.or_eq_true, beq_iff_eq] at h
  rcases h with (rfl | rfl) | rfl <;> decide

theorem isSpace_of_isNameChar {c : CodePoint} (h : isNameChar c = true) : isSpace c = false := by
  rw [Bool.eq_false_iff]
  intro hs
  simp only [isSpace, Bool.or_eq_true, beq_iff_eq] at hs
  rcases hs with (rfl | rfl) | rfl <;> exact absurd h (by decide)

theorem writeUnit_of_unescaped {u : Text} (h : CodePoint.char '\\' ∉ writeUnit u) :
    writeUnit u = u ∧ ∀ c ∈ u, isNameChar c = true := by
  unfold writeUnit at h ⊢
  split at h
  · split at h
    · simp [Text.ofString] at h
    · rename_i hc
      rw [if_neg hc]
      exact writeIdent_of_unescaped h
  · simp

/-- The marks among the characters of safe shapes. -/
theorem eq_of_isShapeChar {c : CodePoint} (hc : IsMarkChar c) (h : isShapeChar c = true) :
    c = '.' ∨ c = '#' ∨ c = '-' := by
  obtain ⟨-, hn, hd⟩ := hc
  have ha : c.isAlpha = false := by
    simp only [isNameStart, Bool.or_eq_false_iff] at hn
    exact hn.1.1
  simp only [isShapeChar, CodePoint.isAlphanum, ha, hd, Bool.or_self, Bool.false_or, Bool.or_eq_true, beq_iff_eq] at h
  rcases h with ((rfl | rfl) | rfl) | rfl
  · exact absurd hn (by decide)
  · exact .inr (.inr rfl)
  · exact .inl rfl
  · exact .inr (.inl rfl)

/-- What is written with spaces and the characters of safe shapes alone is plain. -/
theorem exists_plain {x : Component} (hr : ∀ t ∈ x.leaves, t.IsRead) (he : x.error? = none)
    (h : ∀ c ∈ x.write, isSpace c = true ∨ isShapeChar c = true) : Plain x x.write := by
  have out {c : CodePoint} (hc : c ∈ x.write) (hn : ¬ (isSpace c = true ∨ isShapeChar c = true)) : False :=
    hn (h c hc)
  cases x with
  | block p b cs =>
    refine (out (c := b.opener) (by simp [Component.write]) ?_).elim
    cases b <;> decide
  | function p name args => exact (out (c := '(') (by simp [Component.write]) (by decide)).elim
  | leaf p t =>
    have hr : t.IsRead := hr t (by simp [Component.leaves])
    simp only [Component.write] at out h ⊢
    cases t with
    | whitespace s => exact .space hr.1 hr.2
    | comment s => exact (out (c := '/') (by simp [Leaf.write, Text.ofString]) (by decide)).elim
    | ident n =>
      obtain ⟨hw, hn⟩ := writeIdent_of_unescaped fun hc => out (c := '\\') hc (by decide)
      rw [Leaf.write, hw]
      exact .ident hr hn
    | atKeyword n => exact (out (c := '@') (by simp [Leaf.write]) (by decide)).elim
    | hash n b =>
      have hn : (if b then writeIdent n else writeName n) = n ∧ ∀ c ∈ n, isNameChar c = true := by
        cases b with
        | true => exact writeIdent_of_unescaped fun hc => out (c := '\\') (List.mem_cons_of_mem _ hc) (by decide)
        | false => exact writeName_of_unescaped fun hc => out (c := '\\') (List.mem_cons_of_mem _ hc) (by decide)
      rw [Leaf.write, hn.1]
      exact .hash hn.2 hr
    | string v b => exact (out (c := '"') (by simp [Leaf.write]) (by decide)).elim
    | url v b => exact (out (c := '(') (by simp [Leaf.write, Text.ofString]) (by decide)).elim
    | number r => exact .number hr.1 hr.2
    | percentage r => exact (out (c := '%') (by simp [Leaf.write]) (by decide)).elim
    | dimension r u =>
      obtain ⟨hw, hn⟩ := writeUnit_of_unescaped fun hc => out (c := '\\') (List.mem_append_right r hc) (by decide)
      rw [Leaf.write, hw]
      refine .dimension hr.1 fun c hc => ?_
      rcases List.mem_append.1 hc with hc | hc
      · exact hr.2 c hc
      · exact isSpace_of_isNameChar (hn c hc)
    | unicodeRange a b => exact (out (c := '+') (by simp [Leaf.write, Text.ofString]) (by decide)).elim
    | literal s =>
      rcases hr with hs | ⟨c, hc, rfl | rfl⟩
      · simp only [List.mem_cons, List.not_mem_nil, or_false] at hs
        rcases hs with rfl | rfl | rfl
        · exact (out (c := '<') (by simp [Leaf.write, Text.ofString]) (by decide)).elim
        · exact (out (c := '>') (by simp [Leaf.write, Text.ofString]) (by decide)).elim
        · exact (out (c := '|') (by simp [Leaf.write, Text.ofString]) (by decide)).elim
      · refine .mark ?_
        rcases h c (by simp [Leaf.write]) with hs | hs
        · rw [hc.1] at hs
          cases hs
        · exact eq_of_isShapeChar hc hs
      · exact (out (c := '=') (by simp [Leaf.write]) (by decide)).elim
    | error e => simp [Component.error?] at he

theorem writeAll_cons_cons (x y : Component) (cs : List Component) :
    writeAll (x :: y :: cs) = x.write ++ separator x y ++ writeAll (y :: cs) := by
  simp [writeAll, writeAfter]

/-- Plain components side by side, none of which runs together with the next, and their text. -/
inductive PlainRun : List Component → Text → Prop
  | nil : PlainRun [] []
  | cons {x : Component} {w : Text} {cs : List Component} {s : Text} (hx : Plain x w)
    (hj : ∀ y ∈ cs.head?, x.kind.joins y.kind = false) (hs : PlainRun cs s) : PlainRun (x :: cs) (w ++ s)

theorem separator_of_plain {x y : Component} {w : Text} (hx : Plain x w) (hj : x.kind.joins y.kind = false) :
    separator x y = [] := by
  have hm : x.isMark "\\" = false := by
    cases hx with
    | mark h => rcases h with rfl | rfl | rfl <;> rfl
    | _ => rfl
  simp [separator, hj, hm]

theorem exists_plainRun {cs : List Component} (hr : ∀ t ∈ leavesAll cs, t.IsRead)
    (he : ∀ x ∈ cs, x.error? = none) (h : ∀ c ∈ writeAll cs, isSpace c = true ∨ isShapeChar c = true) :
    PlainRun cs (writeAll cs) := by
  induction cs with
  | nil => exact .nil
  | cons x cs ih =>
    have hrx : ∀ t ∈ x.leaves, t.IsRead := fun t ht => hr t (List.mem_append_left _ ht)
    have hrs : ∀ t ∈ leavesAll cs, t.IsRead := fun t ht => hr t (List.mem_append_right _ ht)
    have hes : ∀ y ∈ cs, y.error? = none := fun y hy => he y (List.mem_cons_of_mem x hy)
    cases cs with
    | nil =>
      have hw : writeAll [x] = x.write ++ [] := by simp [writeAll, writeAfter]
      rw [hw] at h ⊢
      exact .cons (exists_plain hrx (he x List.mem_cons_self) fun c hc => h c (by simpa using hc)) (by simp) .nil
    | cons y cs =>
      rw [writeAll_cons_cons] at h ⊢
      have hx : Plain x x.write := exists_plain hrx (he x List.mem_cons_self) fun c hc => h c (by simp [hc])
      have hj : x.kind.joins y.kind = false := by
        rw [← Bool.not_eq_true]
        intro hj
        have := h '/' (by simp [separator, hj, Text.ofString])
        revert this
        decide
      have hs := ih hrs hes fun c hc => h c (by simp [hc])
      rw [separator_of_plain hx hj, List.append_nil]
      exact .cons hx (by simpa using hj) hs

/-- What stands after a name, spacing apart, is nothing or starts with a point or a hash. -/
theorem PlainRun.after_name {cs : List Component} {s : Text} (h : PlainRun cs s) {k : Kind} (hk : k.endsName = true)
    (hj : ∀ y ∈ cs.head?, k.joins y.kind = false) (hw : ∀ y ∈ cs, y.isWhitespace = false) :
    ∀ c ∈ s.head?, c = '.' ∨ c = '#' := by
  cases h with
  | nil => simp
  | cons hx hj' hs =>
    have hj := hj _ rfl
    have hw := hw _ List.mem_cons_self
    cases hx with
    | space => cases hw
    | ident => simp [Component.kind, Kind.joins, hk, Kind.startsName] at hj
    | hash => simp
    | number => simp [Component.kind, Kind.joins, hk, Kind.isNumeric] at hj
    | dimension => simp [Component.kind, Kind.joins, hk, Kind.isNumeric] at hj
    | mark h =>
      rcases h with rfl | rfl | rfl
      · simp
      · simp
      · simp [Component.kind, Kind.joins, hk, Text.ofString] at hj

theorem isNameChar_of_isPlainIdent {n : Text} (h : Selector.isPlainIdent n = true) : ∀ c ∈ n, isNameChar c = true := by
  cases n with
  | nil => cases h
  | cons c n =>
    simp only [Selector.isPlainIdent, Bool.and_eq_true, List.all_eq_true, Bool.or_eq_true, beq_iff_eq] at h
    intro d hd
    rcases List.mem_cons.1 hd with rfl | hd
    · simp [isNameChar, isNameStart, h.1]
    · rcases h.2 d hd with (hd | rfl) | rfl
      · simp only [CodePoint.isAlphanum, Bool.or_eq_true] at hd
        rcases hd with hd | hd <;> simp [isNameChar, isNameStart, hd]
      · decide
      · decide

theorem exists_head_of_isPlainIdent {n : Text} (h : Selector.isPlainIdent n = true) :
    ∃ c r, n = c :: r ∧ isNameStart c = true := by
  cases n with
  | nil => cases h
  | cons c r =>
    simp only [Selector.isPlainIdent, Bool.and_eq_true] at h
    exact ⟨c, r, rfl, by simp [isNameStart, h.1]⟩

theorem isNameStart_of_isDigit {c : CodePoint} (h : c.isDigit = true) : isNameStart c = false := by
  rw [Bool.eq_false_iff]
  intro hn
  have hd := toNat_of_isDigit h
  simp only [isNameStart, Bool.or_eq_true, beq_iff_eq, decide_eq_true_eq] at hn
  rcases hn with (hn | rfl) | hn
  · have := toNat_of_isAlpha hn
    omega
  · cases h
  · omega

theorem isNameStart_of_startsNumber {c : CodePoint} {q r t : Text} (h : StartsNumber q) (he : c :: r = q ++ t) :
    isNameStart c = false := by
  cases q with
  | nil => cases h
  | cons d q =>
    obtain rfl := (List.cons.inj he).1
    rcases h with h | rfl | rfl | ⟨rfl, -⟩
    · exact isNameStart_of_isDigit h
    all_goals decide

/-- A name at the start ends where a point or a hash stands first. -/
theorem eq_of_name_append_eq {m n s t : Text} (hm : ∀ c ∈ m, isNameChar c = true) (hn : ∀ c ∈ n, isNameChar c = true)
    (hs : ∀ c ∈ s.head?, c = '.' ∨ c = '#') (ht : ∀ c ∈ t.head?, c = '.' ∨ c = '#') (h : m ++ s = n ++ t) :
    m = n ∧ s = t := by
  have stop {c : CodePoint} (hc : c = '.' ∨ c = '#') : isNameChar c ≠ true := by
    rcases hc with rfl | rfl <;> decide
  induction m generalizing n with
  | nil =>
    cases n with
    | nil => exact ⟨rfl, h⟩
    | cons d n => exact absurd (hn d List.mem_cons_self) (stop (hs d (by simp at h; simp [h])))
  | cons c m ih =>
    cases n with
    | nil => exact absurd (hm c List.mem_cons_self) (stop (ht c (by simp at h; simp [← h])))
    | cons d n =>
      simp only [List.cons_append, List.cons.injEq] at h
      obtain ⟨rfl, rfl⟩ := ih (fun e he => hm e (List.mem_cons_of_mem c he))
        (fun e he => hn e (List.mem_cons_of_mem d he)) h.2
      exact ⟨by rw [h.1], rfl⟩

variable {cs : List Component} {m n s : Text}

/-- A run that starts with a name and then nothing, a point or a hash starts with that identifier. -/
theorem PlainRun.ident (h : PlainRun cs (n ++ s)) (hw : ∀ x ∈ cs, x.isWhitespace = false)
    (hn : Selector.isPlainIdent n = true) (hs : ∀ c ∈ s.head?, c = '.' ∨ c = '#') :
    ∃ p ds, cs = .leaf p (.ident n) :: ds ∧ PlainRun ds s := by
  obtain ⟨c, r, hc, hstart⟩ := exists_head_of_isPlainIdent hn
  generalize ht : n ++ s = t at h
  cases h with
  | nil => simp [hc] at ht
  | @cons x w ds t hx hj hd =>
    have hw' : ∀ y ∈ ds, y.isWhitespace = false := fun y hy => hw y (List.mem_cons_of_mem x hy)
    have hwx := hw x List.mem_cons_self
    cases hx with
    | space => cases hwx
    | @ident p k hk hkn =>
      obtain ⟨rfl, rfl⟩ := eq_of_name_append_eq (isNameChar_of_isPlainIdent hn) hkn hs
        (hd.after_name rfl hj hw') ht
      exact ⟨p, ds, rfl, hd⟩
    | hash =>
      rw [hc] at ht
      obtain rfl := (List.cons.inj ht).1
      exact absurd hstart (by decide)
    | number hq =>
      rw [hc] at ht
      rw [isNameStart_of_startsNumber hq ht] at hstart
      cases hstart
    | dimension hq =>
      rw [hc, List.append_assoc] at ht
      rw [isNameStart_of_startsNumber hq ht] at hstart
      cases hstart
    | mark hm =>
      rw [hc] at ht
      obtain rfl := (List.cons.inj ht).1
      rcases hm with rfl | rfl | rfl <;> exact absurd hstart (by decide)

theorem PlainRun.eq_nil (h : PlainRun cs []) : cs = [] := by
  generalize ht : ([] : Text) = t at h
  cases h with
  | nil => rfl
  | cons hx => exact absurd (List.append_eq_nil_iff.1 ht.symm).1 hx.ne_nil

theorem PlainRun.tag (h : PlainRun cs n) (hw : ∀ x ∈ cs, x.isWhitespace = false)
    (hn : Selector.isPlainIdent n = true) : ∃ p, cs = [.leaf p (.ident n)] := by
  rw [← List.append_nil n] at h
  obtain ⟨p, ds, rfl, hd⟩ := h.ident hw hn (by simp)
  exact ⟨p, by rw [hd.eq_nil]⟩

/-- A number that starts with a point goes on with a digit. -/
theorem isDigit_of_startsNumber {q t : Text} (h : StartsNumber q) (he : CodePoint.char '.' :: n = q ++ t) :
    ∀ c ∈ n.head?, c.isDigit = true := by
  cases q with
  | nil => cases h
  | cons d q =>
    obtain ⟨rfl, rfl⟩ := List.cons.inj he
    rcases h with h | h | h | ⟨-, d, hd, hdig⟩
    · exact absurd h (by decide)
    · exact absurd h (by decide)
    · exact absurd h (by decide)
    · cases q with
      | nil => cases hd
      | cons e q =>
        obtain rfl : e = d := by simpa using hd
        simpa using hdig

theorem PlainRun.class_ (h : PlainRun cs ('.' :: n)) (hw : ∀ x ∈ cs, x.isWhitespace = false)
    (hn : Selector.isPlainIdent n = true) : ∃ p q, cs = [.leaf p (.literal "."), .leaf q (.ident n)] := by
  have digit (hd : ∀ c ∈ n.head?, c.isDigit = true) : False := by
    obtain ⟨c, r, rfl, hc⟩ := exists_head_of_isPlainIdent hn
    rw [isNameStart_of_isDigit (hd c rfl)] at hc
    cases hc
  generalize ht : CodePoint.char '.' :: n = t at h
  cases h with
  | nil => cases ht
  | @cons x w ds t hx hj hd =>
    have hwx := hw x List.mem_cons_self
    cases hx with
    | space => cases hwx
    | ident hk hkn =>
      cases w with
      | nil => exact absurd rfl hk
      | cons c k =>
        obtain rfl := (List.cons.inj ht).1
        exact absurd (hkn _ List.mem_cons_self) (by decide)
    | hash => exact absurd (List.cons.inj ht).1 (by decide)
    | number hr => exact (digit (isDigit_of_startsNumber hr ht)).elim
    | dimension hr =>
      rw [List.append_assoc] at ht
      exact (digit (isDigit_of_startsNumber hr ht)).elim
    | @mark p c hc =>
      obtain ⟨rfl, rfl⟩ := List.cons.inj ht
      obtain ⟨q, rfl⟩ := hd.tag (fun y hy => hw y (List.mem_cons_of_mem _ hy)) hn
      exact ⟨p, q, rfl⟩

theorem PlainRun.id (h : PlainRun cs ('#' :: n)) (hw : ∀ x ∈ cs, x.isWhitespace = false)
    (hn : Selector.isPlainIdent n = true) : ∃ p, cs = [.leaf p (.hash n true)] := by
  generalize ht : CodePoint.char '#' :: n = t at h
  cases h with
  | nil => cases ht
  | @cons x w ds t hx hj hd =>
    have hw' : ∀ y ∈ ds, y.isWhitespace = false := fun y hy => hw y (List.mem_cons_of_mem x hy)
    have hwx := hw x List.mem_cons_self
    have number {q r : Text} (hq : StartsNumber q) (he : CodePoint.char '#' :: n = q ++ r) : False := by
      cases q with
      | nil => cases hq
      | cons d q =>
        obtain rfl := (List.cons.inj he).1
        rcases hq with h | h | h | ⟨h, -⟩ <;> exact absurd h (by decide)
    cases hx with
    | space => cases hwx
    | ident hk hkn =>
      cases w with
      | nil => exact absurd rfl hk
      | cons c k =>
        obtain rfl := (List.cons.inj ht).1
        exact absurd (hkn _ List.mem_cons_self) (by decide)
    | @hash p k b hkn hi =>
      obtain ⟨rfl, rfl⟩ := eq_of_name_append_eq (s := []) (isNameChar_of_isPlainIdent hn) hkn (by simp)
        (hd.after_name rfl hj hw') (by simpa using ht)
      obtain ⟨c, r, rfl, hc⟩ := exists_head_of_isPlainIdent hn
      exact ⟨p, by rw [hd.eq_nil, hi c rfl hc]⟩
    | number hr => exact (number hr ht).elim
    | dimension hr =>
      rw [List.append_assoc] at ht
      exact (number hr ht).elim
    | @mark p c hc =>
      obtain ⟨rfl, rfl⟩ := List.cons.inj ht
      -- a hash mark and a name run together
      obtain ⟨q, rfl⟩ := hd.tag hw' hn
      exact absurd (show (Kind.literal "#").joins .ident = false from hj _ rfl) (by decide)

theorem exists_of_isSafeShape {s : Text} (h : Selector.isSafeShape s = true) :
    Selector.isPlainIdent s = true ∨
      (∃ n, (s = .char '.' :: n ∨ s = .char '#' :: n) ∧ Selector.isPlainIdent n = true) ∨
      ∃ m n, (s = m ++ .char '.' :: n ∨ s = m ++ .char '#' :: n) ∧
        Selector.isPlainIdent m = true ∧ Selector.isPlainIdent n = true := by
  have pair {c : CodePoint} (hp : Selector.isPlainPair c s = true) :
      ∃ m n, s = m ++ c :: n ∧ Selector.isPlainIdent m = true ∧ Selector.isPlainIdent n = true := by
    unfold Selector.isPlainPair at hp
    split at hp
    · rename_i m n hc
      exact ⟨m, n, by simpa using Text.eq_append_of_cutAt? hc, by simpa using hp⟩
    · cases hp
  simp only [Selector.isSafeShape, Bool.or_eq_true] at h
  rcases h with ((h | h) | h) | h
  · exact .inl h
  · split at h
    · rename_i c r
      simp only [Bool.and_eq_true, Bool.or_eq_true, beq_iff_eq] at h
      rcases h with ⟨rfl | rfl, hr⟩
      · exact .inr (.inl ⟨r, .inl rfl, hr⟩)
      · exact .inr (.inl ⟨r, .inr rfl, hr⟩)
    · cases h
  · obtain ⟨m, n, hs, hmn⟩ := pair h
    exact .inr (.inr ⟨m, n, .inl hs, hmn⟩)
  · obtain ⟨m, n, hs, hmn⟩ := pair h
    exact .inr (.inr ⟨m, n, .inr hs, hmn⟩)

/-- A run without spacing whose text has a safe shape has that shape. -/
theorem PlainRun.safeShape (h : PlainRun cs s) (hw : ∀ x ∈ cs, x.isWhitespace = false)
    (hs : Selector.isSafeShape s = true) : SafeShape cs s := by
  rcases exists_of_isSafeShape hs with hs | ⟨n, rfl | rfl, hn⟩ | ⟨m, n, rfl | rfl, hm, hn⟩
  · obtain ⟨p, rfl⟩ := h.tag hw hs
    exact .tag hs
  · obtain ⟨p, q, rfl⟩ := h.class_ hw hn
    exact .class_ hn
  · obtain ⟨p, rfl⟩ := h.id hw hn
    exact .id hn
  · obtain ⟨p, ds, rfl, hd⟩ := h.ident hw hm (by simp)
    obtain ⟨q, r, rfl⟩ := hd.class_ (fun y hy => hw y (List.mem_cons_of_mem _ hy)) hn
    exact .tagClass hm hn
  · obtain ⟨p, ds, rfl, hd⟩ := h.ident hw hm (by simp)
    obtain ⟨q, rfl⟩ := hd.id (fun y hy => hw y (List.mem_cons_of_mem _ hy)) hn
    exact .tagId hm hn

theorem PlainRun.exists_of_append {ds : List Component} (h : PlainRun (cs ++ ds) s) :
    ∃ s₁ s₂, s = s₁ ++ s₂ ∧ PlainRun cs s₁ ∧ PlainRun ds s₂ := by
  induction cs generalizing s with
  | nil => exact ⟨[], s, rfl, .nil, h⟩
  | cons x cs ih =>
    cases h with
    | cons hx hj hs =>
      obtain ⟨s₁, s₂, rfl, h₁, h₂⟩ := ih hs
      refine ⟨_, s₂, (List.append_assoc ..).symm, .cons hx (fun y hy => hj y ?_) h₁, h₂⟩
      cases cs with
      | nil => cases hy
      | cons z cs => exact hy

theorem PlainRun.exists_of_mem {x : Component} (h : PlainRun cs s) (hx : x ∈ cs) :
    ∃ w, Plain x w ∧ ∀ c ∈ w, c ∈ s := by
  induction h with
  | nil => cases hx
  | cons hy hj hs ih =>
    rcases List.mem_cons.1 hx with rfl | hx
    · exact ⟨_, hy, fun c hc => List.mem_append_left _ hc⟩
    · obtain ⟨w, hw, hc⟩ := ih hx
      exact ⟨w, hw, fun c h => List.mem_append_right _ (hc c h)⟩

theorem Plain.isSpace_eq {x : Component} {w : Text} (h : Plain x w) :
    ∀ c ∈ w, isSpace c = x.isWhitespace := by
  cases h with
  | space hs h => exact h
  | ident hn h => exact fun c hc => isSpace_of_isNameChar (h c hc)
  | hash h =>
    intro c hc
    rcases List.mem_cons.1 hc with rfl | hc
    · rfl
    · exact isSpace_of_isNameChar (h c hc)
  | number hr h => exact h
  | dimension hr h => exact h
  | mark h =>
    intro c hc
    obtain rfl := List.mem_singleton.1 hc
    rcases h with rfl | rfl | rfl <;> rfl

theorem PlainRun.isSpace_of_all (h : PlainRun cs s) (hw : ∀ x ∈ cs, x.isWhitespace = true) :
    ∀ c ∈ s, isSpace c = true := by
  induction h with
  | nil => simp
  | cons hx hj hs ih =>
    intro c hc
    rcases List.mem_append.1 hc with hc | hc
    · rw [hx.isSpace_eq c hc, hw _ List.mem_cons_self]
    · exact ih (fun y hy => hw y (List.mem_cons_of_mem _ hy)) c hc

theorem PlainRun.head?_text (h : PlainRun cs s) (hw : ∀ x ∈ cs.head?, x.isWhitespace = false) :
    ∀ c ∈ s.head?, isSpace c = false := by
  cases h with
  | nil => simp
  | @cons x w ds t hx hj hs =>
    intro c hc
    have hcw : c ∈ w := by
      cases w with
      | nil => exact absurd rfl hx.ne_nil
      | cons d w =>
        obtain rfl : d = c := by simpa using hc
        exact List.mem_cons_self
    rw [hx.isSpace_eq c hcw, hw x rfl]

theorem PlainRun.getLast?_text (h : PlainRun cs s) (hw : ∀ x ∈ cs.getLast?, x.isWhitespace = false) :
    ∀ c ∈ s.getLast?, isSpace c = false := by
  induction h with
  | nil => simp
  | @cons x w ds t hx hj hs ih =>
    intro c hc
    cases ds with
    | nil =>
      cases hs
      rw [List.append_nil] at hc
      rw [hx.isSpace_eq c (List.mem_of_getLast? hc), hw x rfl]
    | cons y ds =>
      refine ih (by simpa [List.getLast?_cons_cons] using hw) c ?_
      have ht : t ≠ [] := by
        rintro rfl
        cases hs.eq_nil
      rwa [List.getLast?_append_of_ne_nil _ ht] at hc

/-- Separators hold no blanks but line feeds. -/
theorem isSpace_or_exists_of_mem_writeAll {c : CodePoint} (hb : Text.isBlank c = true) (h : c ∈ writeAll cs) :
    isSpace c = true ∨ ∃ x ∈ cs, c ∈ x.write := by
  induction cs with
  | nil => cases h
  | cons x cs ih =>
    cases cs with
    | nil => exact .inr ⟨x, List.mem_cons_self, by simpa [writeAll, writeAfter] using h⟩
    | cons y cs =>
      rw [writeAll_cons_cons, List.mem_append, List.mem_append] at h
      rcases h with (h | h) | h
      · exact .inr ⟨x, List.mem_cons_self, h⟩
      · left
        unfold separator at h
        split at h
        · simp only [Text.ofString, List.mem_map] at h
          obtain ⟨d, hd, rfl⟩ := h
          simp only [String.reduceToList, List.mem_cons, List.not_mem_nil, or_false] at hd
          rcases hd with rfl | rfl | rfl | rfl <;> exact absurd hb (by decide)
        · split at h
          · obtain rfl := List.mem_singleton.1 h
            rfl
          · cases h
      · rcases ih h with h | ⟨z, hz, h⟩
        · exact .inl h
        · exact .inr ⟨z, List.mem_cons_of_mem x hz, h⟩

theorem isShapeChar_of_isPlainIdent (h : Selector.isPlainIdent n = true) : ∀ c ∈ n, isShapeChar c = true := by
  cases n with
  | nil => cases h
  | cons c n =>
    simp only [Selector.isPlainIdent, Bool.and_eq_true, List.all_eq_true, Bool.or_eq_true, beq_iff_eq] at h
    intro d hd
    rcases List.mem_cons.1 hd with rfl | hd
    · simp [isShapeChar, CodePoint.isAlphanum, h.1]
    · rcases h.2 d hd with (hd | rfl) | rfl
      · simp [isShapeChar, hd]
      · rfl
      · rfl

theorem isShapeChar_of_isSafeShape (h : Selector.isSafeShape s = true) : ∀ c ∈ s, isShapeChar c = true := by
  have dot : isShapeChar '.' = true := rfl
  have hash : isShapeChar '#' = true := rfl
  rcases exists_of_isSafeShape h with h | ⟨n, rfl | rfl, hn⟩ | ⟨m, n, rfl | rfl, hm, hn⟩
  · exact isShapeChar_of_isPlainIdent h
  · simpa [dot] using isShapeChar_of_isPlainIdent hn
  · simpa [hash] using isShapeChar_of_isPlainIdent hn
  · simp only [List.mem_append, List.mem_cons]
    rintro c (hc | rfl | hc)
    · exact isShapeChar_of_isPlainIdent hm c hc
    · exact dot
    · exact isShapeChar_of_isPlainIdent hn c hc
  · simp only [List.mem_append, List.mem_cons]
    rintro c (hc | rfl | hc)
    · exact isShapeChar_of_isPlainIdent hm c hc
    · exact hash
    · exact isShapeChar_of_isPlainIdent hn c hc

theorem writeName_of_isNameChar (h : ∀ c ∈ n, isNameChar c = true) : writeName n = n := by
  induction n with
  | nil => rfl
  | cons c n ih =>
    have hc := h c List.mem_cons_self
    have ih := ih fun d hd => h d (List.mem_cons_of_mem c hd)
    simp only [writeName, List.flatMap_cons] at ih ⊢
    simp [writeNameChar, hc, ih]

theorem writeIdent_of_isPlainIdent (h : Selector.isPlainIdent n = true) : writeIdent n = n := by
  have hname := isNameChar_of_isPlainIdent h
  obtain ⟨c, r, rfl, hc⟩ := exists_head_of_isPlainIdent h
  have hd : c ≠ '-' := by
    rintro rfl
    revert hc
    decide
  have hr := writeName_of_isNameChar fun d hd => hname d (List.mem_cons_of_mem c hd)
  unfold writeIdent
  split
  · rename_i heq
    exact absurd (List.cons.inj heq).1 hd
  · rename_i heq
    exact absurd (List.cons.inj heq).1 hd
  · rename_i heq
    exact absurd (List.cons.inj heq).1 hd
  · simp [writeIdentBody, writeNameStart, hc, hr]

theorem SafeShape.isBlank_of_mem_write (h : SafeShape cs s) {x : Component} (hx : x ∈ cs) :
    ∀ c ∈ x.write, Text.isBlank c = false := by
  have ident {p : Position} {n : Text} (hn : Selector.isPlainIdent n = true) :
      ∀ c ∈ (Component.leaf p (.ident n)).write, Text.isBlank c = false := by
    rw [Component.write, Leaf.write, writeIdent_of_isPlainIdent hn]
    exact fun c hc => isBlank_of_isShapeChar (isShapeChar_of_isPlainIdent hn c hc)
  have hash {p : Position} {n : Text} (hn : Selector.isPlainIdent n = true) :
      ∀ c ∈ (Component.leaf p (.hash n true)).write, Text.isBlank c = false := by
    rw [Component.write, Leaf.write, if_pos rfl, writeIdent_of_isPlainIdent hn]
    intro c hc
    rcases List.mem_cons.1 hc with rfl | hc
    · rfl
    · exact isBlank_of_isShapeChar (isShapeChar_of_isPlainIdent hn c hc)
  have dot {p : Position} : ∀ c ∈ (Component.leaf p (.literal ".")).write, Text.isBlank c = false := by
    intro c hc
    obtain rfl := List.mem_singleton.1 hc
    rfl
  cases h with
  | tag hn =>
    obtain rfl := List.mem_singleton.1 hx
    exact ident hn
  | class_ hn =>
    rcases List.mem_cons.1 hx with rfl | hx
    · exact dot
    · obtain rfl := List.mem_singleton.1 hx
      exact ident hn
  | id hn =>
    obtain rfl := List.mem_singleton.1 hx
    exact hash hn
  | tagClass hm hn =>
    simp only [List.mem_cons, List.not_mem_nil, or_false] at hx
    rcases hx with rfl | rfl | rfl
    · exact ident hm
    · exact dot
    · exact ident hn
  | tagId hm hn =>
    simp only [List.mem_cons, List.not_mem_nil, or_false] at hx
    rcases hx with rfl | rfl
    · exact ident hm
    · exact hash hn

/-- Written spacing that the reader does not take for spacing. -/
def HasForeignBlank (s : Text) : Prop := ∃ c ∈ s, Text.isBlank c = true ∧ isSpace c = false

theorem not_hasForeignBlank_of_safeShape {piece : List Component} (hr : ∀ t ∈ leavesAll piece, t.IsRead)
    (h : SafeShape (trimSpace piece) s) : ¬ HasForeignBlank (writeAll piece) := by
  rintro ⟨c, hc, hb, hs⟩
  rcases isSpace_or_exists_of_mem_writeAll hb hc with h' | ⟨x, hx, hc⟩
  · rw [hs] at h'
    cases h'
  · obtain ⟨a, b, hp, ha, hb'⟩ := exists_trim_append Component.isWhitespace piece
    have space (hw : x.isWhitespace = true) : False := by
      cases x with
      | leaf p t =>
        cases t with
        | whitespace t =>
          have ht := (hr (.whitespace t) (mem_leavesAll.2 ⟨_, hx, List.mem_singleton.2 rfl⟩)).2 c hc
          rw [hs] at ht
          cases ht
        | _ => cases hw
      | _ => cases hw
    rw [hp, List.mem_append, List.mem_append] at hx
    rcases hx with (hx | hx) | hx
    · exact space (ha x hx)
    · have := h.isBlank_of_mem_write hx c hc
      rw [hb] at this
      cases this
    · exact space (hb' x hx)

theorem lower_of_isShapeChar (h : ∀ c ∈ s, isShapeChar c = true) : Text.lower s = Text.asciiLower s := by
  have low {c : CodePoint} (hc : isShapeChar c = true) : c.toNat < 0x80 := by
    simp only [isShapeChar, Bool.or_eq_true, beq_iff_eq] at hc
    rcases hc with (((hc | rfl) | rfl) | rfl) | rfl
    · exact (toNat_of_isAlphanum hc).2
    all_goals decide
  induction s with
  | nil => rfl
  | cons c s ih =>
    have ih := ih fun d hd => h d (List.mem_cons_of_mem c hd)
    simp only [Text.lower, Text.asciiLower, List.flatMap_cons, List.map_cons] at ih ⊢
    simp [Text.lowerChar, low (h c List.mem_cons_self), ih]

/-- A text whose normal form has no blanks is that with blanks around it. -/
theorem exists_of_normalize {s : Text} (h : ∀ c ∈ Selector.normalize s, Text.isBlank c = false) :
    ∃ a b, s = a ++ Selector.normalize s ++ b ∧ (∀ c ∈ a, Text.isBlank c = true) ∧
      ∀ c ∈ b, Text.isBlank c = true := by
  obtain ⟨a, b, hab, ha, hb⟩ := Text.exists_strip_append (Text.collapseBlanks s)
  change Text.collapseBlanks s = a ++ Selector.normalize s ++ b at hab
  by_cases hn : Selector.normalize s = []
  · refine ⟨s, [], by simp [hn], fun c hc => ?_, by simp⟩
    by_cases hcb : Text.isBlank c = true
    · exact hcb
    · have := Text.mem_collapseBlanks_of_not (by simpa using hcb) hc
      rw [hab, hn, List.append_nil, List.mem_append] at this
      rcases this with hc | hc
      · exact ha c hc
      · exact hb c hc
  · exact Text.exists_of_collapseBlanks_eq hab ha hb h hn

/-- Plain components without spacing at their ends are what is left when the text is stripped. -/
theorem PlainRun.strip_eq {piece : List Component} (h : PlainRun piece s)
    (hc : ∀ c ∈ s, isSpace c = true ∨ isShapeChar c = true) (hw : ∃ x ∈ piece, x.isWhitespace = false) :
    PlainRun (trimSpace piece) (Text.strip s) ∧ Text.strip s ≠ [] := by
  obtain ⟨p₁, p₂, hp, h₁, h₂⟩ := exists_trim_append Component.isWhitespace piece
  rw [hp] at h
  obtain ⟨t, s₂, rfl, h, hs₂⟩ := h.exists_of_append
  obtain ⟨s₁, u, rfl, hs₁, hu⟩ := h.exists_of_append
  have blank {v : Text} {vs : List Component} (hv : PlainRun vs v) (hvs : ∀ x ∈ vs, x.isWhitespace = true) :
      ∀ c ∈ v, Text.isBlank c = true :=
    fun c hcv => isBlank_of_isSpace (hv.isSpace_of_all hvs c hcv)
  have inked {c : CodePoint} (hcu : c ∈ u) (hcs : isSpace c = false) : Text.isBlank c = false := by
    rcases hc c (by simp [hcu]) with hc | hc
    · rw [hcs] at hc
      cases hc
    · exact isBlank_of_isShapeChar hc
  have htrim : u.IsTrimmed := by
    constructor
    · intro c hcu
      exact inked (List.mem_of_mem_head? hcu) (hu.head?_text (head?_trim _ piece) c hcu)
    · intro c hcu
      exact inked (List.mem_of_getLast? hcu) (hu.getLast?_text (getLast?_trim _ piece) c hcu)
  have hun : u ≠ [] := by
    rintro rfl
    obtain ⟨x, hx, hxw⟩ := hw
    rw [hp, hu.eq_nil, List.append_nil, List.mem_append] at hx
    rcases hx with hx | hx
    · rw [h₁ x hx] at hxw
      cases hxw
    · rw [h₂ x hx] at hxw
      cases hxw
  rw [Text.strip_of_append (blank hs₁ h₁) (blank hs₂ h₂) htrim hun]
  exact ⟨hu, hun⟩

/-- Pieces of a prelude that count for nothing or for an eligible selector, and hold no foreign
blanks, consist of the tokens of a safe shape. -/
theorem exists_safeShape {piece : List Component} (hr : ∀ t ∈ leavesAll piece, t.IsRead)
    (he : ∀ x ∈ piece, x.error? = none) (hw : ∃ x ∈ piece, x.isWhitespace = false)
    (hs : Selector.normalize (writeAll piece) = [] ∨ Selector.isEligible (writeAll piece) = true)
    (hb : ¬ HasForeignBlank (writeAll piece)) :
    ∃ s, SafeShape (trimSpace piece) s ∧ Text.asciiLower s ∉ Selector.critical := by
  have shape : ∀ c ∈ Selector.normalize (writeAll piece), isShapeChar c = true := by
    rcases hs with hs | hs
    · simp [hs]
    · exact isShapeChar_of_isSafeShape ((Selector.isEligible_iff _).1 hs).2.2.2
  obtain ⟨a, b, hab, ha, hb'⟩ := exists_of_normalize fun c hc => isBlank_of_isShapeChar (shape c hc)
  have chars : ∀ c ∈ writeAll piece, isSpace c = true ∨ isShapeChar c = true := by
    intro c hc
    by_cases hcb : Text.isBlank c = true
    · left
      rw [← Bool.not_eq_false]
      exact fun hcs => hb ⟨c, hc, hcb, hcs⟩
    · right
      rw [hab, List.mem_append, List.mem_append] at hc
      rcases hc with (hc | hc) | hc
      · exact absurd (ha c hc) hcb
      · exact shape c hc
      · exact absurd (hb' c hc) hcb
  obtain ⟨hrun, hne⟩ := (exists_plainRun hr he chars).strip_eq chars hw
  have hn : Selector.normalize (writeAll piece) ≠ [] := by
    intro hnil
    rw [hnil, List.append_nil] at hab
    obtain ⟨c, r, hcr⟩ := List.exists_cons_of_ne_nil hne
    have hc := (Text.isTrimmed_strip (writeAll piece)).1 c (by simp [hcr])
    obtain ⟨u, v, huv, -, -⟩ := Text.exists_strip_append (writeAll piece)
    have hmem : c ∈ a ++ b := by
      rw [← hab, huv]
      simp [hcr]
    rcases List.mem_append.1 hmem with hmem | hmem
    · rw [ha c hmem] at hc
      cases hc
    · rw [hb' c hmem] at hc
      cases hc
  have hstrip : Text.strip (writeAll piece) = Selector.normalize (writeAll piece) := by
    conv => lhs; rw [hab]
    exact Text.strip_of_append ha hb' (Text.isTrimmed_strip _) hn
  rw [hstrip] at hrun
  have hel := (Selector.isEligible_iff _).1 (hs.resolve_left hn)
  refine ⟨_, hrun.safeShape (fun x hx => ?_) hel.2.2.2, ?_⟩
  · rw [Bool.eq_false_iff]
    intro hxw
    obtain ⟨w, hwx, hws⟩ := hrun.exists_of_mem hx
    obtain ⟨c, r, rfl⟩ := List.exists_cons_of_ne_nil hwx.ne_nil
    have hc := hwx.isSpace_eq c List.mem_cons_self
    have := isBlank_of_isShapeChar (shape c (hws c List.mem_cons_self))
    rw [isBlank_of_isSpace (hc.trans hxw)] at this
    cases this
  · rw [← lower_of_isShapeChar shape]
    simpa [Selector.isCritical] using hel.2.1

variable {css : Text} {sheet : Sheet}

theorem mem_of_mem_splitAtCommas {prelude piece : List Component} (hp : piece ∈ splitAtCommas prelude)
    {x : Component} (hx : x ∈ piece) : x ∈ prelude := by
  induction prelude generalizing piece with
  | nil =>
    obtain rfl := List.mem_singleton.1 hp
    cases hx
  | cons c cs ih =>
    rw [splitAtCommas] at hp
    split at hp
    · rcases List.mem_cons.1 hp with rfl | hp
      · cases hx
      · exact List.mem_cons_of_mem c (ih hp hx)
    · split at hp
      · obtain rfl := List.mem_singleton.1 hp
        obtain rfl := List.mem_singleton.1 hx
        exact List.mem_cons_self
      · rename_i w ws hws
        rw [hws] at ih
        rcases List.mem_cons.1 hp with rfl | hp
        · rcases List.mem_cons.1 hx with rfl | hx
          · exact List.mem_cons_self
          · exact List.mem_cons_of_mem c (ih List.mem_cons_self hx)
        · exact List.mem_cons_of_mem c (ih (List.mem_cons_of_mem w hp) hx)

theorem Block.Keeps.eligible {st : Statuses} {b : Block} {prelude piece : List Component} (h : b.Keeps prelude)
    (hd : b.isDead st = true) (hp : piece ∈ splitAtCommas prelude) :
    Selector.normalize (writeAll piece) = [] ∨ Selector.isEligible (writeAll piece) = true := by
  by_cases hn : Selector.normalize (writeAll piece) = []
  · exact .inl hn
  · right
    have hs : Selector.normalize (writeAll piece) ∈ b.selectors := by
      rw [h.2.1]
      exact List.mem_filter.2 ⟨List.mem_map_of_mem hp, by simpa using hn⟩
    simpa using (((Block.isDead_iff st b).1 hd).2 _ hs).1

/-- Each piece of a deleted rule's prelude that is more than spacing consists of the tokens of a safe
shape, and is not critical, if and only if its text holds no foreign blanks. -/
theorem Sheet.safeShape_iff (st : Statuses) (h : Sheet.parse css = .ok sheet) :
    (sheet.prune st).1.blocks = sheet.blocks.filter (fun b => !b.isDead st) ∧
    List.Forall₂ (fun b prelude => b.isDead st = true → ∀ piece ∈ splitAtCommas prelude,
      (∃ x ∈ piece, x.isWhitespace = false) →
        ((∃ s, SafeShape (trimSpace piece) s ∧ Text.asciiLower s ∉ Selector.critical) ↔
          ¬ HasForeignBlank (writeAll piece)))
      sheet.blocks (preludes css) := by
  refine ⟨sheet.blocks_prune st, ?_⟩
  obtain ⟨hl, hk⟩ := List.forall₂_iff_get.1 (Sheet.blocks_parse h)
  refine List.forall₂_iff_get.2 ⟨hl, fun i hi hi' hd piece hp hw => ?_⟩
  have hkeeps := hk i hi hi'
  have hr : ∀ t ∈ leavesAll piece, t.IsRead := by
    intro t ht
    obtain ⟨x, hx, ht⟩ := mem_leavesAll.1 ht
    exact isRead_of_mem_preludes (List.get_mem _ _) t (mem_leavesAll.2 ⟨x, mem_of_mem_splitAtCommas hp hx, ht⟩)
  have he : ∀ x ∈ piece, x.error? = none :=
    fun x hx => List.findSome?_eq_none_iff.1 hkeeps.2.2 x (mem_of_mem_splitAtCommas hp hx)
  constructor
  · rintro ⟨s, hs, -⟩
    exact not_hasForeignBlank_of_safeShape hr hs
  · exact exists_safeShape hr he hw (hkeeps.eligible hd hp)

/-- A class whose name ends in a no-break space. -/
def oddClass : Text := ".y\u00A0\x7b\x7d"

theorem preludes_oddClass :
    preludes oddClass = [[.leaf ⟨1, 1⟩ (.literal "."), .leaf ⟨1, 2⟩ (.ident "y\u00A0")]] := by cbv

theorem selectors_oddClass : (Sheet.parse oddClass).map (·.blocks.map Block.selectors) = .ok [[(".y" : Text)]] := by
  cbv

/-- The rule of `.y` with a no-break space in its name is deleted when `.y` is unused. -/
theorem not_safeShape_oddClass : ∃ sheet b piece, Sheet.parse oddClass = .ok sheet ∧ sheet.blocks = [b] ∧
    b.isDead (Table.ofList [(".y", .unused)]) = true ∧ preludes oddClass = [piece] ∧
    splitAtCommas piece = [piece] ∧ ¬ ∃ s, SafeShape (trimSpace piece) s ∧ Text.asciiLower s ∉ Selector.critical := by
  obtain ⟨sheet, hp, hs⟩ := exists_of_map_eq_ok selectors_oddClass
  have hall := (Sheet.safeShape_iff (Table.ofList [(".y", .unused)]) hp).2
  rw [preludes_oddClass] at hall
  obtain ⟨b, bs, hb, hbs, heq⟩ := List.forall₂_cons_right_iff.1 hall
  obtain rfl := List.forall₂_nil_right_iff.1 hbs
  have hsel : b.selectors = [(".y" : Text)] := by simpa [heq] using hs
  have hd : b.isDead (Table.ofList [(".y", .unused)]) = true := by
    rw [Block.isDead_iff, hsel]
    simp only [List.mem_singleton, forall_eq]
    decide
  refine ⟨sheet, b, _, hp, heq, hd, preludes_oddClass, rfl, ?_⟩
  rw [hb hd _ (by exact List.mem_singleton.2 rfl) ⟨_, List.mem_cons_self, rfl⟩]
  exact not_not.2 ⟨'\u00A0', by decide, by decide, by decide⟩

end StylePrune.Css
