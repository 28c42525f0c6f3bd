import StylePrune.Proofs.Css.Tokens

/-!
Component values together with the text they were read from.
-/

set_option autoImplicit false

namespace StylePrune.Css

/-- A component value and its text. A leaf that the end of the text cut off is a value and an error. -/
inductive Span where
  | leaf (text : Text) (t : Leaf)
  | cut (text : Text) (x : CutOff)
  | level (opener : Text) (head : Text ⊕ Bracket) (content : List Span) (closed : Bool)

/-- The bracket that closes a level. -/
def closerOf : Text ⊕ Bracket → Bracket
  | .inl _ => .round
  | .inr b => b

/-- The token that opens a level. -/
def openerOf : Text ⊕ Bracket → Lexeme
  | .inl name => .function name
  | .inr b => .opening b

mutual
def Span.text : Span → Text
  | .leaf a _ | .cut a _ => a
  | .level o h ss closed => o ++ textAll ss ++ if closed then [(closerOf h).closer] else []

def textAll : List Span → Text
  | [] => []
  | s :: ss => s.text ++ textAll ss
end

mutual
/-- The components of a span that starts at `p`. -/
def Span.components (p : Position) : Span → List Component
  | .leaf _ t => [.leaf p t]
  | .cut _ x => [.leaf p x.leaf, .leaf p (.error x.error)]
  | .level o h ss _ => [(Level.mk p h []).component (componentsAll (p.past o) ss)]

def componentsAll (p : Position) : List Span → List Component
  | [] => []
  | s :: ss => s.components p ++ componentsAll (p.past s.text) ss
end

@[simp] theorem textAll_nil : textAll [] = [] := rfl

@[simp] theorem textAll_cons (s : Span) (ss : List Span) : textAll (s :: ss) = s.text ++ textAll ss := rfl

@[simp] theorem textAll_append (ss us : List Span) : textAll (ss ++ us) = textAll ss ++ textAll us := by
  induction ss with
  | nil => rfl
  | cons s ss ih => simp [ih]

theorem componentsAll_append (p : Position) (ss us : List Span) :
    componentsAll p (ss ++ us) = componentsAll p ss ++ componentsAll (p.past (textAll ss)) us := by
  induction ss generalizing p with
  | nil => rfl
  | cons s ss ih => simp [componentsAll, ih]

/-- The text `a` before `v` reads as tokens of one place. -/
structure Token (a v : Text) (ls : List Lexeme) : Prop where
  read : ∃ c s, a ++ v = c :: s ∧ readToken c s = (ls, v)
  clean : ∀ c ∈ a, c ≠ '\r' ∧ c ≠ '\x0c'
  fine : ∀ l ∈ ls, l.Fine

theorem append_eq_cons_of_length {a v s : Text} {c : CodePoint} (h : a ++ v = c :: s) (hl : v.length ≤ s.length) :
    ∃ a', a = c :: a' ∧ s = a' ++ v := by
  cases a with
  | nil =>
    have := congrArg List.length h
    simp only [List.nil_append, List.length_cons] at this
    omega
  | cons d a =>
    obtain ⟨rfl, rfl⟩ := List.cons.inj h
    exact ⟨a, rfl, rfl⟩

/-- A token that ends before what stops, or inside the text, is read when something else that stops follows. -/
theorem readToken_swap {c : CodePoint} {a b v w : Text} {ls : List Lexeme} (hr : readToken c (a ++ (b ++ v)) = (ls, b ++ v))
    (hn : b ++ v ≠ []) (hv : Stops v) (hw : Stops w) : readToken c (a ++ (b ++ w)) = (ls, b ++ w) := by
  rw [← List.append_assoc] at hr ⊢
  rcases readToken_settles c (a ++ b) with hs | ⟨hs, -⟩
  · rw [hs v hv] at hr
    obtain ⟨hl, hb⟩ := Prod.mk.inj hr
    rw [hs w hw, hl, List.append_cancel_right hb]
  · have hl := hs v hv
    rw [hr] at hl
    exfalso
    cases v with
    | nil =>
      simp only [List.append_nil, List.tail_nil, List.length_nil, Nat.le_zero, List.length_eq_zero_iff] at hl hn
      exact hn hl
    | cons d v =>
      simp only [List.length_append, List.length_cons, List.tail_cons] at hl
      omega

namespace Token

variable {a b v w : Text} {ls : List Lexeme}

theorem exists_cons (h : Token a v ls) : ∃ c a', a = c :: a' ∧ readToken c (a' ++ v) = (ls, v) := by
  obtain ⟨c, s, hs, hr⟩ := h.read
  have hl := readToken_length c s
  rw [hr] at hl
  obtain ⟨a', rfl, rfl⟩ := append_eq_cons_of_length hs hl
  exact ⟨c, a', rfl, hr⟩

theorem lexFrom (h : Token a v ls) (p : Position) :
    lexFrom p (a ++ v) = ls.map (p, ·) ++ lexFrom (p.past a) v := by
  obtain ⟨c, a', rfl, hr⟩ := h.exists_cons
  rw [List.cons_append, Css.lexFrom]
  simp only [hr]
  congr 3
  have : (a' ++ v).length + 1 - v.length = (c :: a').length := by
    simp only [List.length_append, List.length_cons]
    omega
  rw [this, ← List.cons_append, List.take_left]

/-- A token that ends before what stops, or inside the text, stays when something else that stops follows. -/
theorem swap (h : Token a (b ++ v) ls) (hn : b ++ v ≠ []) (hv : Stops v) (hw : Stops w) :
    Token a (b ++ w) ls := by
  obtain ⟨c, a', rfl, hr⟩ := h.exists_cons
  exact ⟨⟨c, a' ++ (b ++ w), rfl, readToken_swap hr hn hv hw⟩, h.clean, h.fine⟩

/-- At the end of the text, a token does not depend on what follows or takes up a brace. -/
theorem atEnd (h : Token a [] ls) :
    (∀ v, Stops v → Token a v ls) ∨ ∃ ms, Token (a ++ braces 1) [] ms ∧ Kin ls ms := by
  obtain ⟨c, a', rfl, hr⟩ := h.exists_cons
  rw [List.append_nil] at hr
  rcases readToken_settles c a' with hs | ⟨hs, hk⟩
  · refine .inl fun v hv => ⟨⟨c, a' ++ v, rfl, ?_⟩, h.clean, h.fine⟩
    rw [hs v hv, hr]
    rfl
  · rw [hr] at hk
    refine .inr ⟨_, ⟨⟨c, a' ++ braces 1, by simp, Prod.ext rfl hs.brace⟩, ?_, hk.fine h.fine⟩, hk⟩
    intro d hd
    rcases List.mem_append.1 hd with hd | hd
    · exact h.clean d hd
    · obtain rfl : d = '\x7d' := by simpa [braces] using hd
      decide

end Token

/-- Reading spans up to the end of the text, or up to the bracket that closes the level. -/
inductive Reads : Option Bracket → List Span → Text → Prop where
  | nil {k : Option Bracket} : Reads k [] []
  | stop {b : Bracket} {r : Text} : Reads (some b) [] (b.closer :: r)
  | leaf {k : Option Bracket} {a : Text} {t : Leaf} {ss : List Span} {r : Text} :
      Token a (textAll ss ++ r) [.leaf t] → Reads k ss r → Reads k (.leaf a t :: ss) r
  | stray {k : Option Bracket} {b : Bracket} {ss : List Span} {r : Text} :
      k ≠ some b → Reads k ss r → Reads k (.leaf [b.closer] (.error (.unmatched b)) :: ss) r
  | cut {k : Option Bracket} {a : Text} {x : CutOff} : Token a [] x.lexemes → Reads k [.cut a x] []
  | closed {k : Option Bracket} {o : Text} {h : Text ⊕ Bracket} {cs ss : List Span} {r : Text} :
      Token o (textAll cs ++ (closerOf h).closer :: (textAll ss ++ r)) [openerOf h] →
      Reads (some (closerOf h)) cs ((closerOf h).closer :: (textAll ss ++ r)) → Reads k ss r →
      Reads k (.level o h cs true :: ss) r
  | unclosed {k : Option Bracket} {o : Text} {h : Text ⊕ Bracket} {cs : List Span} :
      Token o (textAll cs) [openerOf h] → Reads (some (closerOf h)) cs [] → Reads k [.level o h cs false] []

namespace Reads

variable {k : Option Bracket} {ss us zs zs' : List Span} {r r' b v w : Text}

theorem rest (h : Reads k ss r) : r = [] ∨ ∃ b r', k = some b ∧ r = b.closer :: r' := by
  induction h with
  | nil => exact .inl rfl
  | stop => exact .inr ⟨_, _, rfl, rfl⟩
  | leaf _ _ ih => exact ih
  | stray _ _ ih => exact ih
  | cut _ => exact .inl rfl
  | closed _ _ _ _ ih => exact ih
  | unclosed _ _ _ => exact .inl rfl

/-- What stands behind some spans may be replaced when it starts with a brace or a semicolon. -/
theorem swap (h : Reads k (us ++ zs) r) (hb : textAll zs ++ r = b ++ v) (hn : b ++ v ≠ []) (hv : Stops v)
    (hw : Stops w) (hz : Reads k zs' r') (hb' : textAll zs' ++ r' = b ++ w) : Reads k (us ++ zs') r' := by
  generalize hs : us ++ zs = ss at h
  induction h generalizing us zs zs' r' b with
  | nil =>
    obtain ⟨rfl, rfl⟩ := List.append_eq_nil_iff.1 hs
    exact hz
  | stop =>
    obtain ⟨rfl, rfl⟩ := List.append_eq_nil_iff.1 hs
    exact hz
  | leaf ht hr ih =>
    cases us with
    | nil => exact hz
    | cons x us =>
      obtain ⟨rfl, rfl⟩ := List.cons.inj hs
      have hn' : (textAll us ++ b) ++ v ≠ [] := by simp_all
      have ht' := Token.swap (b := textAll us ++ b) (by simpa [hb] using ht) hn' hv hw
      exact .leaf (by simpa [hb'] using ht') (ih hb hn hz hb' rfl)
  | stray hk hr ih =>
    cases us with
    | nil => exact hz
    | cons x us =>
      obtain ⟨rfl, rfl⟩ := List.cons.inj hs
      exact .stray hk (ih hb hn hz hb' rfl)
  | cut ht =>
    cases us with
    | nil => exact hz
    | cons x us =>
      obtain ⟨rfl, hu⟩ := List.cons.inj hs
      obtain ⟨rfl, rfl⟩ := List.append_eq_nil_iff.1 hu
      exact absurd hb.symm hn
  | @closed k o h cs ss r ht hc hr ihc ih =>
    cases us with
    | nil => exact hz
    | cons x us =>
      obtain ⟨rfl, rfl⟩ := List.cons.inj hs
      have he : textAll [] ++ (closerOf h).closer :: (textAll (us ++ zs) ++ r) =
          ((closerOf h).closer :: (textAll us ++ b)) ++ v := by simp [hb]
      have he' : textAll [] ++ (closerOf h).closer :: (textAll (us ++ zs') ++ r') =
          ((closerOf h).closer :: (textAll us ++ b)) ++ w := by simp [hb']
      have ht' := Token.swap (b := textAll cs ++ (closerOf h).closer :: (textAll us ++ b))
        (by simpa [hb] using ht) (by simp) hv hw
      have hc' := ihc he (by simp) .stop he' (List.append_nil cs)
      exact .closed (by simpa [hb'] using ht') (by simpa using hc') (ih hb hn hz hb' rfl)
  | unclosed ht hc _ =>
    cases us with
    | nil => exact hz
    | cons x us =>
      obtain ⟨rfl, hu⟩ := List.cons.inj hs
      obtain ⟨rfl, rfl⟩ := List.append_eq_nil_iff.1 hu
      exact absurd hb.symm hn

/-- What stands behind a level may be replaced behind the bracket that closes the level. -/
theorem swap_rest {c : Bracket} (h : Reads (some c) ss (c.closer :: r)) (hc : IsHard c.closer) :
    Reads (some c) ss (c.closer :: r') := by
  rw [← List.append_nil ss] at h ⊢
  exact h.swap (b := []) rfl (by simp) (stops_cons hc r) (stops_cons hc r') .stop rfl

end Reads

theorem Reads.text_ne_nil {k : Option Bracket} {s : Span} {ss : List Span} {r : Text} (h : Reads k (s :: ss) r) :
    s.text ≠ [] := by
  have token {a v : Text} {ls : List Lexeme} (ht : Token a v ls) : a ≠ [] := by
    obtain ⟨c, a', rfl, -⟩ := ht.exists_cons
    exact List.cons_ne_nil c a'
  cases h with
  | leaf ht _ => exact token ht
  | stray _ _ => exact List.cons_ne_nil _ _
  | cut ht => exact token ht
  | closed ht _ _ => simp [Span.text]
  | unclosed ht _ => simp [Span.text, token ht]

theorem Reads.eq_nil {k : Option Bracket} {ss : List Span} {r : Text} (h : Reads k ss r) (hs : textAll ss = []) :
    ss = [] := by
  cases ss with
  | nil => rfl
  | cons s ss => exact absurd (List.append_eq_nil_iff.1 hs).1 h.text_ne_nil

theorem Reads.tail {k : Option Bracket} {s : Span} {ss : List Span} {r : Text} (h : Reads k (s :: ss) r) :
    Reads k ss r := by
  cases h with
  | leaf _ h => exact h
  | stray _ h => exact h
  | cut _ => exact .nil
  | closed _ _ h => exact h
  | unclosed _ _ => exact .nil

theorem Reads.of_append {k : Option Bracket} {us ss : List Span} {r : Text} (h : Reads k (us ++ ss) r) :
    Reads k ss r := by
  induction us with
  | nil => exact h
  | cons u us ih => exact ih h.tail

theorem Token.head_ne {a v : Text} {ls : List Lexeme} (h : Token a v ls) {b : Bracket} (hl : ls ≠ [.closing b]) :
    a.head? ≠ some b.closer := by
  obtain ⟨c, a', rfl, hr⟩ := h.exists_cons
  intro hc
  obtain rfl := Option.some.inj hc
  rw [readToken_closer] at hr
  exact hl (Prod.mk.inj hr).1.symm

end StylePrune.Css
