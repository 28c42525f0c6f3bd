import StylePrune.Proofs.Css.Prelude

/-!
What reading makes sure of about the leaves of a sheet, and that it holds wherever they end up: in
component values at every depth, and in the preludes of style rules.
-/

set_option autoImplicit false

namespace StylePrune.Css

/-- A digit, a sign, or a point with a digit after it. -/
def StartsNumber : Text → Prop
  | c :: s => c.isDigit = true ∨ c = '+' ∨ c = '-' ∨ c = '.' ∧ ∃ d ∈ s.head?, d.isDigit = true
  | [] => False

/-- A character that starts neither spacing nor a name nor a number. -/
def IsMarkChar (c : CodePoint) : Prop := isSpace c = false ∧ isNameStart c = false ∧ c.isDigit = false

/-- What the reader makes sure of about a leaf. -/
def Leaf.IsRead : Leaf → Prop
  | .whitespace s => s ≠ [] ∧ ∀ c ∈ s, isSpace c = true
  | .ident n => n ≠ []
  | .hash n isIdent => ∀ c ∈ n.head?, isNameStart c = true → isIdent = true
  | .number r | .percentage r | .dimension r _ => StartsNumber r ∧ ∀ c ∈ r, isSpace c = false
  | .literal s => s ∈ [("<!--" : Text), "-->", "||"] ∨ ∃ c, IsMarkChar c ∧ (s = [c] ∨ s = [c, '='])
  | _ => True

theorem StartsNumber.append {s : Text} (h : StartsNumber s) (t : Text) : StartsNumber (s ++ t) := by
  cases s with
  | nil => cases h
  | cons c s =>
    rcases h with h | h | h | ⟨h, d, hd, hdig⟩
    · exact .inl h
    · exact .inr (.inl h)
    · exact .inr (.inr (.inl h))
    · refine .inr (.inr (.inr ⟨h, d, ?_, hdig⟩))
      cases s with
      | nil => cases hd
      | cons e s => exact hd

theorem isDigit_of_mem_head?_takeDigits {s : Text} {d : CodePoint} (h : d ∈ (takeDigits s).1.head?) :
    d.isDigit = true :=
  List.all_eq_true.1 List.all_takeWhile d (List.mem_of_mem_head? h)

theorem startsNumber_of_takeDigits {s : Text} (h : (takeDigits s).1 ≠ []) : StartsNumber (takeDigits s).1 := by
  cases hd : (takeDigits s).1 with
  | nil => exact absurd hd h
  | cons c r => exact .inl (isDigit_of_mem_head?_takeDigits (s := s) (by simp [hd]))

theorem startsNumber_of_takeDecimal? {s r t : Text} (h : takeDecimal? s = some (r, t)) :
    StartsNumber r := by
  have whole (hw : (takeDigits s).1 ≠ []) (he : some (takeDigits s) = some (r, t)) : StartsNumber r := by
    rw [Option.some.inj he] at hw
    simpa [Option.some.inj he] using startsNumber_of_takeDigits (s := s) (by simpa [Option.some.inj he] using hw)
  simp only [takeDecimal?] at h
  split at h
  · rename_i rest _
    split at h
    · rename_i hf
      obtain ⟨rfl, -⟩ := by simpa using h
      by_cases hw : (takeDigits s).1 = []
      · obtain ⟨d, ds, hd⟩ := List.exists_cons_of_ne_nil hf
        rw [hw]
        exact .inr (.inr (.inr ⟨rfl, d, by simp [hd], isDigit_of_mem_head?_takeDigits (s := rest) (by simp [hd])⟩))
      · exact (startsNumber_of_takeDigits hw).append _
    · split at h
      · cases h
      · rename_i hw
        exact whole hw h
  · split at h
    · cases h
    · rename_i hw
      exact whole hw h

theorem startsNumber_of_takeNumber? {s r t : Text} (h : takeNumber? s = some (r, t)) :
    StartsNumber r := by
  obtain ⟨d, hd, he⟩ := Option.map_eq_some_iff.1 h
  have hr : r = (takeSign s).1 ++ d.1 ++ (takeExponent d.2).1 := (Prod.mk.inj he).1.symm
  have hn : StartsNumber d.1 := startsNumber_of_takeDecimal? (t := d.2) hd
  rw [hr]
  refine StartsNumber.append ?_ _
  unfold takeSign
  split
  · exact .inr (.inl rfl)
  · exact .inr (.inr (.inl rfl))
  · exact hn

theorem isSpace_of_isDigit {c : CodePoint} (h : c.isDigit = true) : isSpace c = false := by
  rw [Bool.eq_false_iff]
  intro hs
  simp only [isSpace, Bool.or_eq_true, beq_iff_eq] at hs
  rcases hs with (rfl | rfl) | rfl <;> exact absurd h (by decide)

theorem isSpace_of_mem_takeDigits {s : Text} : ∀ c ∈ (takeDigits s).1, isSpace c = false :=
  fun c hc => isSpace_of_isDigit (List.all_eq_true.1 List.all_takeWhile c hc)

theorem isSpace_of_mem_takeSign {s : Text} : ∀ c ∈ (takeSign s).1, isSpace c = false := by
  unfold takeSign
  split
  · simpa using (by decide : isSpace '+' = false)
  · simpa using (by decide : isSpace '-' = false)
  · simp

theorem isSpace_of_mem_takeExponent {s : Text} : ∀ c ∈ (takeExponent s).1, isSpace c = false := by
  unfold takeExponent
  split
  · simp only []
    split
    · rename_i h
      simp only [List.mem_cons, List.cons_append, List.mem_append]
      rintro d (rfl | hd | hd)
      · rcases h.1 with rfl | rfl <;> decide
      · exact isSpace_of_mem_takeSign d hd
      · exact isSpace_of_mem_takeDigits d hd
    · simp
  · simp

theorem isSpace_of_mem_takeDecimal? {s r t : Text} (h : takeDecimal? s = some (r, t)) :
    ∀ c ∈ r, isSpace c = false := by
  have whole (he : some (takeDigits s) = some (r, t)) : ∀ c ∈ r, isSpace c = false := by
    have := isSpace_of_mem_takeDigits (s := s)
    rwa [Option.some.inj he] at this
  simp only [takeDecimal?] at h
  split at h
  · split at h
    · obtain ⟨rfl, -⟩ := by simpa using h
      simp only [List.mem_append, List.mem_cons]
      rintro c (hc | rfl | hc)
      · exact isSpace_of_mem_takeDigits c hc
      · decide
      · exact isSpace_of_mem_takeDigits c hc
    · split at h
      · cases h
      · exact whole h
  · split at h
    · cases h
    · exact whole h

theorem isSpace_of_mem_takeNumber? {s r t : Text} (h : takeNumber? s = some (r, t)) :
    ∀ c ∈ r, isSpace c = false := by
  obtain ⟨d, hd, he⟩ := Option.map_eq_some_iff.1 h
  have hr : r = (takeSign s).1 ++ d.1 ++ (takeExponent d.2).1 := (Prod.mk.inj he).1.symm
  rw [hr]
  simp only [List.mem_append]
  rintro c ((hc | hc) | hc)
  · exact isSpace_of_mem_takeSign c hc
  · exact isSpace_of_mem_takeDecimal? (t := d.2) hd c hc
  · exact isSpace_of_mem_takeExponent c hc

theorem startsIdent_of_ne {c : CodePoint} (h : c ≠ '-') (s : Text) :
    startsIdent (c :: s) = (isNameStart c || startsEscape (c :: s)) := by
  unfold startsIdent
  split
  · rename_i heq
    exact absurd (List.cons.inj heq).1 h
  · rename_i heq
    obtain ⟨rfl, rfl⟩ := List.cons.inj heq
    rfl
  · rename_i heq
    cases heq

theorem isNameChar_or_startsEscape {c : CodePoint} {s : Text} (h : startsIdent (c :: s) = true) :
    isNameChar c = true ∨ startsEscape (c :: s) = true := by
  by_cases hc : c = '-'
  · exact .inl (by rw [hc]; decide)
  · rw [startsIdent_of_ne hc, Bool.or_eq_true] at h
    exact h.imp (fun hn => by simp [isNameChar, hn]) id

theorem takeName_ne_nil {s : Text} (h : startsIdent s = true) : (takeName s).1 ≠ [] := by
  cases s with
  | nil => cases h
  | cons c s =>
    rw [takeName]
    rcases isNameChar_or_startsEscape h with hn | he
    · simp [hn]
    · by_cases hn : isNameChar c = true <;> simp [hn, he]

theorem startsIdent_of_takeName {s : Text} {c : CodePoint} (h : c ∈ (takeName s).1.head?)
    (hc : isNameStart c = true) : startsIdent s = true := by
  cases s with
  | nil => simp [takeName] at h
  | cons d s =>
    rw [takeName] at h
    by_cases hn : isNameChar d = true
    · obtain rfl : d = c := by simpa [hn] using h
      have hd : d ≠ '-' := by
        rintro rfl
        revert hc
        decide
      rw [startsIdent_of_ne hd, hc, Bool.true_or]
    · by_cases he : startsEscape (d :: s) = true
      · have hd : d ≠ '-' := by
          rintro rfl
          exact hn (by decide)
        rw [startsIdent_of_ne hd, he, Bool.or_true]
      · simp [hn, he] at h

/-- Where no number starts there is no digit. -/
theorem isDigit_of_takeNumber? {c : CodePoint} {s : Text} (h : takeNumber? (c :: s) = none) :
    c.isDigit = false := by
  rw [Bool.eq_false_iff]
  intro hc
  have hs : takeSign (c :: s) = ([], c :: s) := by
    unfold takeSign
    split
    · rename_i heq
      rw [(List.cons.inj heq).1] at hc
      exact absurd hc (by decide)
    · rename_i heq
      rw [(List.cons.inj heq).1] at hc
      exact absurd hc (by decide)
    · rfl
  have hw : (takeDigits (c :: s)).1 ≠ [] := by simp [takeDigits, hc]
  have hd : (takeDecimal? (c :: s)).isSome = true := by
    simp only [takeDecimal?, hw, if_false]
    split
    · split <;> rfl
    · rfl
  obtain ⟨d, hd⟩ := Option.isSome_iff_exists.1 hd
  simp [takeNumber?, hs, hd] at h

theorem isRead_of_mem_readIdentLike {s : Text} (hs : startsIdent s = true) {t : Leaf}
    (h : .leaf t ∈ (readIdentLike s).1) : t.IsRead := by
  unfold readIdentLike at h
  simp only [] at h
  split at h
  · split at h
    · unfold readUrl at h
      split at h
      · obtain rfl := by simpa using h
        trivial
      · rcases List.mem_cons.1 h with h | h
        · obtain rfl := Lexeme.leaf.inj h
          trivial
        · obtain rfl := by simpa using h
          trivial
      · obtain rfl := by simpa using h
        trivial
    · simp at h
  · obtain rfl := by simpa using h
    exact takeName_ne_nil hs

theorem isRead_of_mem_readNumeric {r s : Text} (hr : StartsNumber r ∧ ∀ c ∈ r, isSpace c = false) {t : Leaf}
    (h : .leaf t ∈ (readNumeric r s).1) : t.IsRead := by
  unfold readNumeric at h
  split at h
  · obtain rfl := by simpa using h
    exact hr
  · split at h
    · obtain rfl := by simpa using h
      exact hr
    · obtain rfl := by simpa using h
      exact hr

theorem isRead_of_mem_readString {q : CodePoint} {s : Text} {t : Leaf}
    (h : .leaf t ∈ (readString q s).1) : t.IsRead := by
  unfold readString at h
  split at h
  · obtain rfl := by simpa using h
    trivial
  · rcases List.mem_cons.1 h with h | h
    · obtain rfl := Lexeme.leaf.inj h
      trivial
    · obtain rfl := by simpa using h
      trivial
  · obtain rfl := by simpa using h
    trivial

theorem isRead_of_mem_readComment {s : Text} {t : Leaf} (h : .leaf t ∈ (readComment s).1) : t.IsRead := by
  unfold readComment at h
  split at h
  · obtain rfl := by simpa using h
    trivial
  · obtain rfl := by simpa using h
    trivial

theorem isRead_of_mem_readMark {c : CodePoint} (hc : IsMarkChar c) {s : Text} {t : Leaf}
    (h : .leaf t ∈ (readMark c s).1) : t.IsRead := by
  have mark (he : t = .literal [c] ∨ t = .literal [c, '=']) : t.IsRead := by
    rcases he with rfl | rfl
    · exact .inr ⟨c, hc, .inl rfl⟩
    · exact .inr ⟨c, hc, .inr rfl⟩
  unfold readMark at h
  split at h
  · split at h
    · obtain rfl := by simpa using h
      trivial
    · rename_i hat _
      obtain rfl := by simpa using h
      exact mark (.inl (by rw [hat]; rfl))
  · split at h
    · rename_i hat
      have hash (he : t = .hash (takeName s).1 (startsIdent s)) : t.IsRead := by
        rw [he]
        exact fun d hd hs => startsIdent_of_takeName hd hs
      cases s <;> simp only [] at h <;> split at h
      all_goals first
        | exact hash (by simpa using h)
        | exact mark (.inl (by rw [hat]; simpa [Text.ofString] using h))
    · -- brackets are no leaves
      iterate 6
        split at h
        · simp at h
      split at h
      · exact isRead_of_mem_readString h
      · split at h
        · exact isRead_of_mem_readComment h
        · split at h
          · obtain rfl := by simpa using h
            exact .inl (by simp)
          · split at h
            · obtain rfl := by simpa using h
              exact .inl (by simp)
            · split at h
              · split at h
                · exact mark (.inr (by simpa using h))
                · exact mark (.inl (by simpa using h))
              · exact mark (.inl (by simpa using h))

theorem isRead_of_mem_readToken {c : CodePoint} {s : Text} {t : Leaf}
    (h : .leaf t ∈ (readToken c s).1) : t.IsRead := by
  unfold readToken at h
  split at h
  · rename_i hc
    obtain rfl := by simpa using h
    refine ⟨by simp, fun d hd => ?_⟩
    rcases List.mem_cons.1 hd with rfl | hd
    · exact hc
    · exact List.all_eq_true.1 List.all_takeWhile d hd
  · rename_i hsp
    split at h
    · obtain rfl := by simpa using h
      trivial
    · split at h
      · obtain rfl := by simpa using h
        exact .inl (by simp)
      · split at h
        · rename_i hi
          exact isRead_of_mem_readIdentLike hi h
        · rename_i hi
          split at h
          · rename_i hn
            exact isRead_of_mem_readNumeric ⟨startsNumber_of_takeNumber? hn, isSpace_of_mem_takeNumber? hn⟩ h
          · rename_i hn
            refine isRead_of_mem_readMark ⟨by simpa using hsp, ?_, isDigit_of_takeNumber? hn⟩ h
            by_cases hd : c = '-'
            · rw [hd]
              decide
            · rw [startsIdent_of_ne hd] at hi
              simp at hi
              exact hi.1

theorem isRead_of_mem_lexFrom {p q : Position} {s : Text} {t : Leaf}
    (h : (q, .leaf t) ∈ lexFrom p s) : t.IsRead := by
  fun_induction lexFrom p s with
  | case1 => cases h
  | case2 p c s hlen read ih =>
    rcases List.mem_append.1 h with h | h
    · obtain ⟨l, hl, he⟩ := List.mem_map.1 h
      obtain rfl : l = .leaf t := (Prod.mk.inj he).2
      exact isRead_of_mem_readToken hl
    · exact ih h

mutual
/-- The leaves of a component at every depth. -/
def Component.leaves : Component → List Leaf
  | .leaf _ t => [t]
  | .block _ _ cs => leavesAll cs
  | .function _ _ cs => leavesAll cs

def leavesAll : List Component → List Leaf
  | [] => []
  | c :: cs => c.leaves ++ leavesAll cs
end

theorem mem_leavesAll {t : Leaf} {cs : List Component} : t ∈ leavesAll cs ↔ ∃ c ∈ cs, t ∈ c.leaves := by
  induction cs with
  | nil => simp [leavesAll]
  | cons c cs ih => simp [leavesAll, ih]

namespace Nesting

variable {P : Leaf → Prop}

/-- A property that all leaves so far have. -/
def All (P : Leaf → Prop) (n : Nesting) : Prop :=
  (∀ t ∈ leavesAll n.current, P t) ∧ ∀ l ∈ n.levels, ∀ t ∈ leavesAll l.before, P t

theorem All.add {n : Nesting} (h : n.All P) {c : Component} (hc : ∀ t ∈ c.leaves, P t) : (n.add c).All P :=
  ⟨by simpa [Nesting.add, leavesAll, or_imp, forall_and] using ⟨hc, h.1⟩, h.2⟩

theorem leaves_component (l : Level) (cs : List Component) : (l.component cs).leaves = leavesAll cs := by
  unfold Level.component
  split <;> rfl

theorem mem_leavesAll_reverse {t : Leaf} {cs : List Component} : t ∈ leavesAll cs.reverse ↔ t ∈ leavesAll cs := by
  simp [mem_leavesAll]

theorem All.step {n : Nesting} (h : n.All P) (he : ∀ e, P (.error e)) {x : Position × Lexeme}
    (hx : ∀ t, x.2 = .leaf t → P t) : (n.step x).All P := by
  obtain ⟨p, x⟩ := x
  cases x with
  | leaf t => exact h.add (by simpa [Component.leaves] using hx t rfl)
  | opening b => exact ⟨by simp [Nesting.step, openLevel, leavesAll], by simpa [Nesting.step, openLevel] using And.intro h.1 h.2⟩
  | function name => exact ⟨by simp [Nesting.step, openLevel, leavesAll], by simpa [Nesting.step, openLevel] using And.intro h.1 h.2⟩
  | closing b =>
    have stray : (n.add (.leaf p (.error (.unmatched b)))).All P := h.add (by simpa [Component.leaves] using he _)
    simp only [Nesting.step]
    split
    · rename_i l ls hl
      split
      · have hl' := h.2 l (by rw [hl]; exact List.mem_cons_self)
        refine ⟨?_, fun m hm => h.2 m (by rw [hl]; exact List.mem_cons_of_mem l hm)⟩
        simp only [leavesAll, leaves_component, List.mem_append, mem_leavesAll_reverse]
        rintro t (ht | ht)
        · exact h.1 t ht
        · exact hl' t ht
      · exact stray
    · exact stray

theorem All.closeAll {ls : List Level} {cs : List Component} (h : (Nesting.mk ls cs).All P) :
    ∀ t ∈ leavesAll (closeAll ls cs), P t := by
  induction ls generalizing cs with
  | nil => exact fun t ht => h.1 t (mem_leavesAll_reverse.1 ht)
  | cons l ls ih =>
    refine ih ⟨?_, fun m hm => h.2 m (List.mem_cons_of_mem l hm)⟩
    simp only [leavesAll, leaves_component, List.mem_append, mem_leavesAll_reverse]
    rintro t (ht | ht)
    · exact h.1 t ht
    · exact h.2 l List.mem_cons_self t ht

theorem All.foldl {n : Nesting} (h : n.All P) (he : ∀ e, P (.error e)) {ts : List (Position × Lexeme)}
    (ht : ∀ x ∈ ts, ∀ t, x.2 = .leaf t → P t) : (ts.foldl Nesting.step n).All P := by
  induction ts generalizing n with
  | nil => exact h
  | cons x ts ih =>
    exact ih (h.step he (ht x List.mem_cons_self)) fun y hy => ht y (List.mem_cons_of_mem x hy)

end Nesting

theorem isRead_of_mem_components {s : Text} {cs : List Component} (h : components s = .ok cs) :
    ∀ t ∈ leavesAll cs, t.IsRead := by
  unfold components at h
  split at h
  · cases h
  · obtain rfl := Except.ok.inj h
    refine Nesting.All.closeAll (Nesting.All.foldl (n := .start) ⟨by simp [Nesting.start, leavesAll], by
      simp [Nesting.start]⟩ (fun _ => trivial) fun x hx t ht => ?_)
    obtain ⟨p, l⟩ := x
    obtain rfl : l = .leaf t := ht
    exact isRead_of_mem_lexFrom hx

/-- The leaves of what a rule consists of. -/
def Rule.leaves : Rule → List Leaf
  | .qualified _ prelude content => leavesAll prelude ++ leavesAll content
  | .atRule _ _ prelude content => leavesAll prelude ++ leavesAll (content.getD [])
  | .trivia _ | .unfinished _ => []

theorem leavesAll_takeQualified {t : Leaf} (cs : List Component)
    (h : t ∈ leavesAll (Rule.takeQualified cs).1 ∨ t ∈ leavesAll ((Rule.takeQualified cs).2.1.getD []) ∨
      t ∈ leavesAll (Rule.takeQualified cs).2.2) : t ∈ leavesAll cs := by
  fun_induction Rule.takeQualified cs with
  | case1 => simp [leavesAll] at h
  | case2 p content cs => simpa [leavesAll, Component.leaves] using h
  | case3 c cs _ r ih =>
    simp only [leavesAll, List.mem_append] at h ⊢
    rcases h with (h | h) | h | h
    · exact .inl h
    · exact .inr (ih (.inl h))
    · exact .inr (ih (.inr (.inl h)))
    · exact .inr (ih (.inr (.inr h)))

theorem leavesAll_takeAtRule {t : Leaf} (cs : List Component)
    (h : t ∈ leavesAll (Rule.takeAtRule cs).1 ∨ t ∈ leavesAll ((Rule.takeAtRule cs).2.1.getD []) ∨
      t ∈ leavesAll (Rule.takeAtRule cs).2.2) : t ∈ leavesAll cs := by
  fun_induction Rule.takeAtRule cs with
  | case1 => simp [leavesAll] at h
  | case2 p content cs => simpa [leavesAll, Component.leaves] using h
  | case3 c cs _ _ => exact List.mem_append_right _ (by simpa [leavesAll] using h)
  | case4 c cs _ _ r ih =>
    simp only [leavesAll, List.mem_append] at h ⊢
    rcases h with (h | h) | h | h
    · exact .inl h
    · exact .inr (ih (.inl h))
    · exact .inr (ih (.inr (.inl h)))
    · exact .inr (ih (.inr (.inr h)))

theorem leaves_ofComponents {t : Leaf} {r : Rule} {cs : List Component} (hr : r ∈ Rule.ofComponents cs)
    (ht : t ∈ r.leaves) : t ∈ leavesAll cs := by
  fun_induction Rule.ofComponents cs with
  | case1 => cases hr
  | case2 c cs h ih =>
    rcases List.mem_cons.1 hr with rfl | hr
    · cases ht
    · exact List.mem_append_right _ (ih hr)
  | case3 c cs _ _ ih => exact List.mem_append_right _ (ih hr)
  | case4 cs p name h hl h' ih =>
    refine List.mem_append_right _ (leavesAll_takeAtRule cs ?_)
    rcases List.mem_cons.1 hr with rfl | hr
    · simpa [Rule.leaves, or_assoc] using Or.inl ht
    · exact .inr (.inr (ih hr))
  | case5 cs c _ _ _ _ ih =>
    refine leavesAll_takeQualified (c :: cs) ?_
    rcases List.mem_cons.1 hr with rfl | hr
    · simp only [Rule.ofQualified] at ht
      split at ht
      · rename_i content hc
        rcases List.mem_append.1 ht with ht | ht
        · exact .inl ht
        · exact .inr (.inl (by rwa [hc]))
      · cases ht
    · exact .inr (.inr (ih hr))

theorem leaves_preludes {t : Leaf} {prelude : List Component} (rules : List Rule)
    (hp : prelude ∈ Rule.preludes rules) (ht : t ∈ leavesAll prelude) : ∃ r ∈ rules, t ∈ r.leaves := by
  have later {r' : Rule} {rs : List Rule} (h : ∃ r ∈ rs, t ∈ r.leaves) : ∃ r ∈ r' :: rs, t ∈ r.leaves := by
    obtain ⟨r, hr, hl⟩ := h
    exact ⟨r, List.mem_cons_of_mem r' hr, hl⟩
  fun_induction Rule.preludes rules with
  | case1 => cases hp
  | case2 p pre content rs ih =>
    rcases List.mem_cons.1 hp with rfl | hp
    · exact ⟨_, List.mem_cons_self, List.mem_append_left _ ht⟩
    · exact later (ih hp)
  | case3 p keyword pre cs rs ihc ih =>
    rcases List.mem_append.1 hp with hp | hp
    · split at hp
      · obtain ⟨r, hr, hl⟩ := ihc hp
        exact ⟨_, List.mem_cons_self, List.mem_append_right _ (leaves_ofComponents hr hl)⟩
      · cases hp
    · exact later (ih hp)
  | case4 _ _ _ _ ih => exact later (ih hp)
  | case5 _ _ ih => exact later (ih hp)
  | case6 _ _ ih => exact later (ih hp)

/-- The leaves of preludes are as the reader makes them. -/
theorem isRead_of_mem_preludes {css : Text} {prelude : List Component} (hp : prelude ∈ preludes css) :
    ∀ t ∈ leavesAll prelude, t.IsRead := by
  unfold preludes at hp
  split at hp
  · rename_i cs hc
    intro t ht
    obtain ⟨r, hr, hl⟩ := leaves_preludes _ hp ht
    exact isRead_of_mem_components hc t (leaves_ofComponents hr hl)
  · cases hp

end StylePrune.Css
