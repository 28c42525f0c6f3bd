import StylePrune.Proofs.Css.Spans

/-!
Closing braces behind a text. A brace closes the level that the text leaves open, or goes into the last
span of the text, and then that span keeps its kind.
-/

set_option autoImplicit false

namespace StylePrune.Css

/-- The role of the leaf of a span. -/
def Span.role? : Span → Option Role
  | .leaf _ t => some t.role
  | .cut .. => some .other
  | .level .. => none

theorem Token.ne_nil {a v : Text} {ls : List Lexeme} (h : Token a v ls) : a ≠ [] := by
  obtain ⟨c, a', rfl, -⟩ := h.exists_cons
  exact List.cons_ne_nil c a'

/-- No span starts with a closing brace but a stray one outside braces. -/
theorem Reads.head_ne {k : Option Bracket} {s : Span} {ss : List Span} {r : Text} (h : Reads k (s :: ss) r)
    (hk : k = some .curly ∨ s.role? ≠ some .other) : s.text.head? ≠ some Bracket.curly.closer := by
  have level {o u v : Text} {head : Text ⊕ Bracket} (ht : Token o v [openerOf head]) :
      (o ++ u).head? ≠ some Bracket.curly.closer := by
    rw [List.head?_append_of_ne_nil _ ht.ne_nil]
    exact ht.head_ne (by cases head <;> simp [openerOf])
  cases h with
  | leaf ht _ => exact ht.head_ne (by simp)
  | @stray _ b _ _ hb _ =>
    rcases hk with rfl | hk
    · cases b with
      | curly => exact absurd rfl hb
      | square => simp [Span.text, Bracket.closer]
      | round => simp [Span.text, Bracket.closer]
    · exact absurd rfl hk
  | cut ht => exact ht.head_ne (by simp [CutOff.lexemes])
  | closed ht _ _ => simpa only [Span.text, List.append_assoc] using level ht
  | unclosed ht _ => simpa only [Span.text, List.append_assoc] using level ht

/-- Spans that mean the same to the grammar of rules: leaves of one role, or levels that open alike. -/
inductive Span.Kin : Span → Span → Prop where
  | leaf {x y : Span} {r : Role} : x.role? = some r → y.role? = some r → Kin x y
  | level {o : Text} {h : Text ⊕ Bracket} {cs ds : List Span} {c d : Bool} :
      Kin (.level o h cs c) (.level o h ds d)

theorem Span.Kin.trans {x y z : Span} (h : x.Kin y) (h' : y.Kin z) : x.Kin z := by
  cases h with
  | leaf hx hy => cases h' with
    | leaf hy' hz => exact .leaf hx (by rw [hz, ← hy', hy])
    | level => cases hy
  | level => cases h' with
    | leaf hy => cases hy
    | level => exact .level

/-- Spans that differ in the last, which is of the same kin. -/
def KinLast (ss us : List Span) : Prop := ∃ init x y, ss = init ++ [x] ∧ us = init ++ [y] ∧ x.Kin y

theorem KinLast.trans {ss us zs : List Span} (h : KinLast ss us) (h' : KinLast us zs) : KinLast ss zs := by
  obtain ⟨init, x, y, rfl, rfl, hk⟩ := h
  obtain ⟨init', y', z, he, rfl, hk'⟩ := h'
  obtain ⟨rfl, hy⟩ := List.append_inj' he rfl
  obtain rfl := List.head_eq_of_cons_eq hy
  exact ⟨init, x, z, rfl, rfl, hk.trans hk'⟩

theorem KinLast.cons {ss us : List Span} (h : KinLast ss us) (s : Span) : KinLast (s :: ss) (s :: us) := by
  obtain ⟨init, x, y, rfl, rfl, hk⟩ := h
  exact ⟨s :: init, x, y, rfl, rfl, hk⟩

theorem braces_one : braces 1 = [Bracket.curly.closer] := rfl

/-- The span of a token that is a leaf. -/
theorem Reads.of_plays {k : Option Bracket} {a : Text} {r : Role} {ls : List Lexeme} (h : Token a [] ls) (hp : Plays r ls) :
    ∃ y : Span, y.text = a ∧ y.role? = some r ∧ Reads k [y] [] := by
  cases hp with
  | whole t => exact ⟨.leaf a t, rfl, rfl, .leaf (by simpa using h) .nil⟩
  | cut x => exact ⟨.cut a x, rfl, rfl, .cut h⟩

/-- What a closing brace does behind spans that end with the text: it closes their level, or it goes into the
spans, and then only the last one changes. -/
def TakesBrace (k : Option Bracket) (ss : List Span) : Prop :=
  (k = some .curly ∧ Reads k ss (braces 1)) ∨
    ∃ us, textAll us = textAll ss ++ braces 1 ∧ Reads k us [] ∧ (k = some .curly → KinLast ss us)

theorem TakesBrace.cons {k : Option Bracket} {s : Span} {ss : List Span} (h : TakesBrace k ss)
    (hs : ∀ us r, textAll us ++ r = textAll ss ++ braces 1 → Reads k us r → Reads k (s :: us) r) :
    TakesBrace k (s :: ss) := by
  rcases h with ⟨hk, h⟩ | ⟨us, hu, h, hk⟩
  · exact .inl ⟨hk, hs ss _ rfl h⟩
  · exact .inr ⟨s :: us, by simp [hu], hs us [] (by simp [hu]) h, fun h => (hk h).cons s⟩

/-- A token that the end cuts off takes the brace up. -/
theorem TakesBrace.of_kin {k : Option Bracket} {s : Span} {ls ms : List Lexeme} {r : Role} (hs : s.role? = some r)
    (hl : Plays r ls) (hm : Token (s.text ++ braces 1) [] ms) (hk : Kin ls ms) : TakesBrace k [s] := by
  obtain ⟨r', hl', hm'⟩ := hk.role
  obtain rfl := hl.unique hl'
  obtain ⟨y, hy, hr, h⟩ := Reads.of_plays (k := k) hm hm'
  exact .inr ⟨[y], by simp [hy], h, fun _ => ⟨[], s, y, rfl, rfl, .leaf hs hr⟩⟩

theorem Reads.takesBrace {k : Option Bracket} {ss : List Span} (h : Reads k ss []) : TakesBrace k ss := by
  generalize hr : ([] : Text) = r at h
  induction h with
  | @nil k =>
    by_cases hk : k = some .curly
    · exact .inl ⟨hk, hk ▸ .stop⟩
    · exact .inr ⟨[.leaf [Bracket.curly.closer] (.error (.unmatched .curly))], rfl, .stray hk .nil, fun h => absurd h hk⟩
  | stop => cases hr
  | @leaf k a t ss r ht hs ih =>
    subst hr
    have stable (ht : Token a (textAll ss ++ braces 1) [.leaf t]) : TakesBrace k (.leaf a t :: ss) :=
      (ih rfl).cons fun us r hu h => .leaf (hu ▸ ht) h
    by_cases hn : textAll ss = []
    · obtain rfl := hs.eq_nil hn
      rcases ht.atEnd with ht | ⟨ms, hm, hk⟩
      · exact stable (ht _ (stops_braces 1))
      · exact .of_kin rfl (.whole t) hm hk
    · exact stable (ht.swap (b := textAll ss) (by simpa using hn) stops_nil (stops_braces 1))
  | stray hk hs ih => exact (ih hr).cons fun us r _ h => .stray hk h
  | @cut k a x ht =>
    rcases ht.atEnd with ht | ⟨ms, hm, hk⟩
    · obtain ⟨c, a', -, hr⟩ := (ht _ (stops_braces 1)).exists_cons
      have ho := outcome_readToken c (a' ++ braces 1)
      rw [hr] at ho
      exact absurd (ho.eq_nil (by simp [CutOff.lexemes])) (List.cons_ne_nil _ _)
    · exact .of_kin rfl (.cut x) hm hk
  | @closed k o h cs ss r ht hc hs ihc ih =>
    subst hr
    refine (ih rfl).cons fun us r hu hs' => ?_
    have ht' := Token.swap (b := textAll cs ++ (closerOf h).closer :: textAll ss) (by simpa using ht) (by simp)
      stops_nil (stops_braces 1)
    have hc₀ : Reads (some (closerOf h)) (cs ++ []) ((closerOf h).closer :: (textAll ss ++ [])) := by simpa using hc
    have hc' := hc₀.swap (b := (closerOf h).closer :: textAll ss) (by simp) (by simp) stops_nil (stops_braces 1) .stop rfl
    exact .closed (by simpa [hu] using ht') (by simpa [hu] using hc') hs'
  | @unclosed k o h cs ht hc ihc =>
    have ht' : Token o (textAll cs ++ braces 1) [openerOf h] := by
      by_cases hn : textAll cs = []
      · rw [hn] at ht ⊢
        rcases ht.atEnd with ht | ⟨ms, -, hk⟩
        · exact ht _ (stops_braces 1)
        · obtain ⟨r, hl, -⟩ := hk.role
          cases h <;> cases hl
      · exact Token.swap (b := textAll cs) (by simpa using ht) (by simpa using hn) stops_nil (stops_braces 1)
    have kin {ds : List Span} {c d : Bool} : KinLast [.level o h cs c] [.level o h ds d] :=
      ⟨[], _, _, rfl, rfl, .level⟩
    rcases ihc rfl with ⟨hk, hc'⟩ | ⟨us, hu, hc', -⟩
    · -- the brace closes the level
      have hb : braces 1 = [(closerOf h).closer] := by rw [braces_one, Option.some.inj hk]
      rw [hb] at ht' hc'
      exact .inr ⟨[.level o h cs true], by simp [Span.text, hb], .closed (by simpa using ht') (by simpa using hc') .nil,
        fun _ => kin⟩
    · exact .inr ⟨[.level o h us false], by simp [Span.text, hu], .unclosed (by rwa [hu]) hc', fun _ => kin⟩

theorem Reads.more {ss : List Span} {b : Nat} (h : Reads (some .curly) ss (braces (b + 1))) (n : Nat) :
    Reads (some .curly) ss (braces (n + 1)) :=
  h.swap_rest (.inr (.inl rfl))

theorem braces_add (m n : Nat) : braces (m + n) = braces m ++ braces n := List.replicate_add m n _

/-- Closing braces behind spans: some of them may go into the last span, the others stay behind. -/
theorem Reads.takesBraces {ss : List Span} {b : Nat} (h : Reads (some .curly) ss (braces b)) (n : Nat) :
    ∃ us m, m ≤ b + n ∧ textAll us ++ braces m = textAll ss ++ braces (b + n) ∧
      Reads (some .curly) us (braces m) ∧ (us = ss ∨ KinLast ss us) := by
  cases b with
  | succ b =>
    refine ⟨ss, b + 1 + n, Nat.le_refl _, rfl, ?_, .inl rfl⟩
    rw [Nat.add_right_comm]
    exact h.more _
  | zero =>
    rw [Nat.zero_add]
    induction n generalizing ss with
    | zero => exact ⟨ss, 0, Nat.le_refl _, rfl, h, .inl rfl⟩
    | succ n ih =>
      rcases Reads.takesBrace h with ⟨-, h⟩ | ⟨us, hu, h, hk⟩
      · exact ⟨ss, n + 1, Nat.le_refl _, rfl, h.more n, .inl rfl⟩
      · obtain ⟨zs, m, hm, hz, hr, hkin⟩ := ih h
        refine ⟨zs, m, Nat.le_succ_of_le hm, ?_, hr, .inr ?_⟩
        · rw [hz, hu, Nat.add_comm n 1, braces_add, List.append_assoc]
        · rcases hkin with rfl | hkin
          · exact hk rfl
          · exact (hk rfl).trans hkin

end StylePrune.Css
