import StylePrune.Proofs.Css.Braces
import StylePrune.Css.Reader

/-!
The rules that spans form.
-/

set_option autoImplicit false

namespace StylePrune.Css

def Component.isCurly : Component → Bool
  | .block _ .curly _ => true
  | _ => false

/-- A mark of an HTML comment. -/
def Component.isHtmlMark (c : Component) : Bool := c.isMark "<!--" || c.isMark "-->"

namespace Rule

theorem takeQualified_append {xs : List Component} (h : ∀ c ∈ xs, c.isCurly = false) (ys : List Component) :
    takeQualified (xs ++ ys) = (xs ++ (takeQualified ys).1, (takeQualified ys).2) := by
  induction xs with
  | nil => rfl
  | cons c xs ih =>
    have ih := ih fun d hd => h d (List.mem_cons_of_mem c hd)
    have hc := h c List.mem_cons_self
    rw [List.cons_append, takeQualified]
    · rw [ih]
      rfl
    · rintro p content rfl
      cases hc

theorem takeAtRule_append {xs : List Component} (h : ∀ c ∈ xs, c.isCurly = false ∧ c.isMark ";" = false)
    (ys : List Component) :
    takeAtRule (xs ++ ys) = (xs ++ (takeAtRule ys).1, (takeAtRule ys).2) := by
  induction xs with
  | nil => rfl
  | cons c xs ih =>
    have ih := ih fun d hd => h d (List.mem_cons_of_mem c hd)
    have hc := h c List.mem_cons_self
    rw [List.cons_append, takeAtRule]
    · rw [if_neg (by simp [hc.2]), ih]
      rfl
    · rintro p content rfl
      cases hc.1

theorem ofComponents_of_isTrivia {c : Component} (h : c.isTrivia = true) (cs : List Component) :
    ofComponents (c :: cs) = .trivia c.pos :: ofComponents cs := by
  rw [ofComponents.eq_def]
  exact if_pos h

theorem ofComponents_of_atKeyword (p : Position) (name : Text) (cs : List Component) :
    ofComponents (.leaf p (.atKeyword name) :: cs) =
      .atRule p name (takeAtRule cs).1 (takeAtRule cs).2.1 :: ofComponents (takeAtRule cs).2.2 := by
  rw [ofComponents]
  simp [Component.isTrivia, Component.isMark]

theorem ofComponents_of_ne {c : Component} (ht : c.isTrivia = false) (hm : c.isHtmlMark = false)
    (ha : ∀ p name, c ≠ .leaf p (.atKeyword name)) (cs : List Component) :
    ofComponents (c :: cs) = ofQualified c cs :: ofComponents (takeQualified (c :: cs)).2.2 := by
  have hm : (c.isMark "<!--" || c.isMark "-->") = false := hm
  rw [ofComponents, if_neg (by simp [ht]), if_neg (by simp [hm])]
  exact ha

theorem ofComponents_of_isHtmlMark {c : Component} (hc : c.isHtmlMark = true) (cs : List Component) :
    ofComponents (c :: cs) = ofComponents cs := by
  have ht : c.isTrivia = false := by
    cases c with
    | leaf p t => cases t <;> simp_all [Component.isHtmlMark, Component.isMark, Component.isTrivia]
    | _ => rfl
  rw [ofComponents.eq_def]
  exact (if_neg (by simp [ht])).trans (if_pos hc)

/-- Without a block in braces a qualified rule is unfinished. -/
theorem exists_unfinished {c : Component} {cs : List Component} (h : ∀ d ∈ c :: cs, d.isCurly = false) :
    ∃ q, ofQualified c cs = .unfinished q ∧ (takeQualified (c :: cs)).2.2 = [] := by
  have hq := takeQualified_append h []
  rw [List.append_nil] at hq
  simp only [ofQualified, hq, takeQualified]
  exact ⟨_, rfl, trivial⟩

end Rule

namespace Span

def isCurly : Span → Bool
  | .level _ (.inr .curly) _ _ => true
  | _ => false

/-- Neither a block in braces nor a semicolon. -/
def isPlain (s : Span) : Bool := !s.isCurly && s.role? ≠ some .semicolon

/-- No mark of an HTML comment. -/
def Fine : Span → Prop
  | .leaf _ t => (Lexeme.leaf t).Fine
  | _ => True

/-- Every span starts with a component of its place. -/
theorem components_eq_cons {s : Span} (h : s.Fine) (p : Position) :
    ∃ c cs, s.components p = c :: cs ∧ c.pos = p ∧ c.isMark "<!--" = false ∧ c.isMark "-->" = false := by
  cases s with
  | leaf a t =>
    refine ⟨_, _, rfl, rfl, ?_⟩
    cases t <;> simp_all [Fine, Lexeme.Fine, Component.isMark]
  | cut a x => cases x <;> exact ⟨_, _, rfl, rfl, rfl, rfl⟩
  | level o head cs c => cases head <;> exact ⟨_, _, rfl, rfl, rfl, rfl⟩

theorem isCurly_of_mem_components {s : Span} {p : Position} {c : Component} (h : c ∈ s.components p)
    (hs : s.isCurly = false) : c.isCurly = false := by
  cases s with
  | leaf a t =>
    obtain rfl := List.mem_singleton.1 h
    rfl
  | cut a x => rcases List.mem_pair.1 h with rfl | rfl <;> rfl
  | level o head cs b =>
    obtain rfl := List.mem_singleton.1 h
    rcases head with n | b
    · rfl
    · cases b
      · cases hs
      · rfl
      · rfl

theorem isMark_of_mem_components {s : Span} {p : Position} {c : Component} (h : c ∈ s.components p)
    (hs : s.role? ≠ some .semicolon) : c.isMark ";" = false := by
  cases s with
  | leaf a t =>
    obtain rfl := List.mem_singleton.1 h
    cases t <;> simp_all [Component.isMark, role?, Leaf.role, Text.ofString]
  | cut a x => rcases List.mem_pair.1 h with rfl | rfl <;> cases x <;> rfl
  | level o head cs b =>
    obtain rfl := List.mem_singleton.1 h
    cases head <;> rfl

end Span

theorem Reads.fine {k : Option Bracket} {ss : List Span} {r : Text} (h : Reads k ss r) : ∀ s ∈ ss, s.Fine := by
  induction h with
  | nil => simp
  | stop => simp
  | leaf ht _ ih =>
    rintro s (_ | ⟨_, hs⟩)
    · exact ht.fine _ List.mem_cons_self
    · exact ih s hs
  | stray _ _ ih =>
    rintro s (_ | ⟨_, hs⟩)
    · exact ⟨rfl, by simp, by simp⟩
    · exact ih s hs
  | cut _ => simp [Span.Fine]
  | closed _ _ _ _ ih =>
    rintro s (_ | ⟨_, hs⟩)
    · trivial
    · exact ih s hs
  | unclosed _ _ _ => simp [Span.Fine]

theorem mem_componentsAll {p : Position} {ss : List Span} {c : Component} (h : c ∈ componentsAll p ss) :
    ∃ s ∈ ss, ∃ q, c ∈ s.components q := by
  induction ss generalizing p with
  | nil => cases h
  | cons s ss ih =>
    rcases List.mem_append.1 h with h | h
    · exact ⟨s, List.mem_cons_self, p, h⟩
    · obtain ⟨u, hu, q, hq⟩ := ih h
      exact ⟨u, List.mem_cons_of_mem s hu, q, hq⟩

theorem isCurly_of_mem_componentsAll {p : Position} {ss : List Span} (hs : ∀ s ∈ ss, s.isCurly = false) :
    ∀ c ∈ componentsAll p ss, c.isCurly = false := fun c hc => by
  obtain ⟨s, hm, q, hq⟩ := mem_componentsAll hc
  exact Span.isCurly_of_mem_components hq (hs s hm)

namespace Span

theorem isPlain_iff {s : Span} : s.isPlain = true ↔ s.isCurly = false ∧ s.role? ≠ some .semicolon := by
  simp [isPlain]

theorem components_trivia {s : Span} (h : s.role? = some .trivia) (p : Position) :
    ∃ t, s.components p = [.leaf p t] ∧ (Component.leaf p t).isTrivia = true := by
  cases s with
  | leaf a t =>
    refine ⟨t, rfl, ?_⟩
    cases t with
    | literal u =>
      by_cases hu : u = [.char ';'] <;> simp [role?, Leaf.role, hu] at h
    | _ => simp_all [role?, Leaf.role, Component.isTrivia]
  | cut a x => simp [role?] at h
  | level o head cs c => cases h

/-- The first component of a span is trivia only if the span is. -/
theorem isTrivia_of_components {s : Span} {p : Position} {c : Component} {cs : List Component}
    (h : s.components p = c :: cs) (hs : s.role? ≠ some .trivia) : c.isTrivia = false := by
  cases s with
  | leaf a t =>
    obtain rfl := (List.cons.inj h).1
    cases t <;> simp_all [Component.isTrivia, role?, Leaf.role]
  | cut a x =>
    obtain rfl := (List.cons.inj h).1
    cases x <;> rfl
  | level o head ds b =>
    obtain rfl := (List.cons.inj h).1
    cases head <;> rfl

theorem ne_atKeyword_of_components {s : Span} {p : Position} {c : Component} {cs : List Component}
    (h : s.components p = c :: cs) (hs : s.role? ≠ some .atKeyword) (q : Position) (name : Text) :
    c ≠ .leaf q (.atKeyword name) := by
  rintro rfl
  cases s with
  | leaf a t =>
    obtain ⟨-, rfl⟩ := Component.leaf.inj (List.cons.inj h).1
    exact hs rfl
  | cut a x => cases x <;> cases (List.cons.inj h).1
  | level o head ds b => cases head <;> cases (List.cons.inj h).1

end Span

namespace Rule

theorem ofComponents_trivia {s : Span} (h : s.role? = some .trivia) (p : Position) (ds : List Component) :
    ofComponents (s.components p ++ ds) = .trivia p :: ofComponents ds := by
  obtain ⟨t, ht, htr⟩ := Span.components_trivia h p
  rw [ht, List.singleton_append, ofComponents_of_isTrivia htr]
  rfl

/-- The first rule starts at the first component, unless it is unfinished. -/
theorem ofComponents_cons {c : Component} (h₁ : c.isMark "<!--" = false) (h₂ : c.isMark "-->" = false)
    (cs : List Component) :
    ∃ r rs, ofComponents (c :: cs) = r :: rs ∧ (r.pos = c.pos ∨ ∃ p, r = .unfinished p) := by
  rw [ofComponents.eq_def]
  simp only [h₁, h₂, Bool.or_false, Bool.false_eq_true, if_false]
  split
  · exact ⟨_, _, rfl, .inl rfl⟩
  · split
    · exact ⟨_, _, rfl, .inl rfl⟩
    · refine ⟨_, _, rfl, ?_⟩
      unfold ofQualified
      simp only []
      split
      · exact .inl rfl
      · exact .inr ⟨_, rfl⟩

theorem ofComponents_atKeyword {a name : Text} {ss : List Span} (hs : ∀ s ∈ ss, s.isPlain = true) (p : Position)
    (ds : List Component) :
    ofComponents (componentsAll p (.leaf a (.atKeyword name) :: ss) ++ ds) =
      .atRule p name (componentsAll (p.past a) ss ++ (takeAtRule ds).1) (takeAtRule ds).2.1 ::
        ofComponents (takeAtRule ds).2.2 := by
  have hc : ∀ c ∈ componentsAll (p.past a) ss, c.isCurly = false ∧ c.isMark ";" = false := fun c hc => by
    obtain ⟨s, hm, q, hq⟩ := mem_componentsAll hc
    obtain ⟨h₁, h₂⟩ := Span.isPlain_iff.1 (hs s hm)
    exact ⟨Span.isCurly_of_mem_components hq h₁, Span.isMark_of_mem_components hq h₂⟩
  rw [componentsAll, Span.components, List.append_assoc, List.singleton_append, ofComponents_of_atKeyword, Span.text,
    takeAtRule_append hc]

theorem ofComponents_atBlock {a name o : Text} {ss cs : List Span} {c : Bool} (hs : ∀ s ∈ ss, s.isPlain = true)
    (p : Position) (ds : List Component) :
    ofComponents (componentsAll p (.leaf a (.atKeyword name) :: ss ++ [.level o (.inr .curly) cs c]) ++ ds) =
      .atRule p name (componentsAll (p.past a) ss)
        (some (componentsAll ((p.past (a ++ textAll ss)).past o) cs)) :: ofComponents ds := by
  rw [componentsAll_append, List.append_assoc, ofComponents_atKeyword hs]
  simp [componentsAll, Span.components, Level.component, takeAtRule, Span.text]

theorem ofComponents_atSemicolon {a name : Text} {ss : List Span} {s : Span} (hs : ∀ u ∈ ss, u.isPlain = true)
    (h : s.role? = some .semicolon) (p : Position) (ds : List Component) :
    ofComponents (componentsAll p (.leaf a (.atKeyword name) :: ss ++ [s]) ++ ds) =
      .atRule p name (componentsAll (p.past a) ss) none :: ofComponents ds := by
  have ht (q : Position) : takeAtRule (s.components q ++ ds) = ([], none, ds) := by
    cases s with
    | leaf b t =>
      have hm : (Component.leaf q t).isMark ";" = true := by
        cases t <;> simp_all [Span.role?, Leaf.role, Component.isMark, Text.ofString]
      rw [Span.components, List.singleton_append, takeAtRule]
      · exact if_pos hm
      · intro _ _ hc
        cases hc
    | cut b x => cases h
    | level o head cs c => cases h
  rw [componentsAll_append, List.append_assoc, ofComponents_atKeyword hs]
  simp only [componentsAll, List.append_nil, ht]

theorem ofComponents_atPending {a name : Text} {ss : List Span} (hs : ∀ u ∈ ss, u.isPlain = true) (p : Position) :
    ofComponents (componentsAll p (.leaf a (.atKeyword name) :: ss)) =
      [.atRule p name (componentsAll (p.past a) ss) none] := by
  rw [← List.append_nil (componentsAll _ _), ofComponents_atKeyword hs]
  simp [takeAtRule, ofComponents]

/-- A span that starts a qualified rule. -/
def StartsQualified (s : Span) : Prop := s.Fine ∧ s.role? ≠ some .trivia ∧ s.role? ≠ some .atKeyword

theorem ofComponents_qualified {s : Span} (h : StartsQualified s) (p : Position) (ds : List Component) :
    ∃ c cs, s.components p = c :: cs ∧ c.pos = p ∧
      ofComponents (s.components p ++ ds) =
        ofQualified c (cs ++ ds) :: ofComponents (takeQualified (s.components p ++ ds)).2.2 := by
  obtain ⟨c, cs, hc, hp, h₁, h₂⟩ := Span.components_eq_cons h.1 p
  refine ⟨c, cs, hc, hp, ?_⟩
  rw [hc, List.cons_append]
  exact ofComponents_of_ne (Span.isTrivia_of_components hc h.2.1) (by simp [Component.isHtmlMark, h₁, h₂])
    (Span.ne_atKeyword_of_components hc h.2.2) _

/-- A block in braces behind a prelude without one makes a qualified rule. -/
theorem ofComponents_block {ss : List Span} {o : Text} {cs : List Span} {c : Bool} (hs : ∀ s ∈ ss, s.isCurly = false)
    (hq : ∀ s ∈ (ss ++ [Span.level o (.inr .curly) cs c]).head?, StartsQualified s) (p : Position)
    (ds : List Component) :
    ofComponents (componentsAll p (ss ++ [.level o (.inr .curly) cs c]) ++ ds) =
      .qualified p (componentsAll p ss) (componentsAll ((p.past (textAll ss)).past o) cs) :: ofComponents ds := by
  have ht : takeQualified (componentsAll p (ss ++ [.level o (.inr .curly) cs c]) ++ ds) =
      (componentsAll p ss, some (componentsAll ((p.past (textAll ss)).past o) cs), ds) := by
    rw [componentsAll_append, List.append_assoc, takeQualified_append (isCurly_of_mem_componentsAll hs)]
    simp [componentsAll, Span.components, Level.component, takeQualified]
  cases hss : ss ++ [.level o (.inr .curly) cs c] with
  | nil => simp at hss
  | cons s us =>
    rw [hss] at hq ht
    obtain ⟨d, es, hd, hp, he⟩ := ofComponents_qualified (hq s rfl) p (componentsAll (p.past s.text) us ++ ds)
    rw [componentsAll, List.append_assoc] at ht ⊢
    rw [he, ht]
    rw [hd, List.cons_append] at ht
    simp only [ofQualified, ht, hp]

theorem ofComponents_unfinished {s : Span} {ss : List Span} (hq : StartsQualified s)
    (hs : ∀ u ∈ s :: ss, u.isCurly = false) (p : Position) :
    ∃ q, ofComponents (componentsAll p (s :: ss)) = [.unfinished q] := by
  obtain ⟨d, es, hd, hp, he⟩ := ofComponents_qualified hq p (componentsAll (p.past s.text) ss)
  have hc := isCurly_of_mem_componentsAll (p := p) hs
  rw [componentsAll, hd, List.cons_append] at hc
  obtain ⟨q, hu, hr⟩ := exists_unfinished hc
  refine ⟨q, ?_⟩
  rw [componentsAll, he, hu, hd, List.cons_append, hr, ofComponents]

end Rule

end StylePrune.Css
