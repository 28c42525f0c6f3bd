import StylePrune.Proofs.Css.Nesting
import StylePrune.Proofs.Css.Rules
import StylePrune.Proofs.Css.Offsets

/-!
Where the components of a text lie in it. They follow one another without gaps, each where its position
says, and what a block in braces holds lies between its braces.
-/

set_option autoImplicit false

namespace StylePrune.Css

namespace LinedText

variable {src : LinedText}

def Has (src : LinedText) (i : Nat) (c : CodePoint) : Prop := src.text[i]? = some c

theorem Has.lt {i : Nat} {c : CodePoint} (h : src.Has i c) : i < src.text.length :=
  (List.getElem?_eq_some_iff.1 h).1

theorem Has.unique {i : Nat} {c d : CodePoint} (h : src.Has i c) (h' : src.Has i d) : c = d :=
  Option.some.inj (h.symm.trans h')

/-- What ends a mark of an HTML comment stands before `i`. -/
def MarkEndsAt (src : LinedText) (i : Nat) : Prop := 0 < i ∧ (src.Has (i - 1) '-' ∨ src.Has (i - 1) '>')

/-- From `i` to `m` stands what opens a level. -/
def Opens (src : LinedText) (i m : Nat) : Text ⊕ Bracket → Prop
  | .inl _ => i < m
  | .inr b => src.Has i b.opener ∧ m = i + 1

theorem Opens.lt {i m : Nat} {h : Text ⊕ Bracket} (ho : src.Opens i m h) : i < m := by
  cases h with
  | inl name => exact ho
  | inr b => exact ho.2 ▸ Nat.lt_succ_self i

/-- A component at `p` of the level that `k` closes starts at `i`, and not with what closes the level. -/
structure Starts (src : LinedText) (k : Option Bracket) (p : Position) (i : Nat) : Prop where
  index : src.index p = i
  head : ∀ b ∈ k, ¬ src.Has i b.closer

/-- Components from `i` to `j`, in a level that `k` closes. Of the two that a cut off string is, the first
takes up nothing. -/
inductive Lies (src : LinedText) : Option Bracket → Nat → List Component → Nat → Prop where
  | nil {k : Option Bracket} {i : Nat} : Lies src k i [] i
  | leaf {k : Option Bracket} {p : Position} {t : Leaf} {cs : List Component} {i m j : Nat} :
      src.Starts k p i → i ≤ m → i < j → ((Component.leaf p t).isHtmlMark = true → i < m ∧ src.MarkEndsAt m) →
      Lies src k m cs j → Lies src k i (.leaf p t :: cs) j
  | closed {k : Option Bracket} {p : Position} {h : Text ⊕ Bracket} {content cs : List Component} {i m e j : Nat} :
      src.Starts k p i → src.Opens i m h → Lies src (some (closerOf h)) m content e →
      src.Has e (closerOf h).closer → Lies src k (e + 1) cs j →
      Lies src k i ((Level.mk p h []).component content :: cs) j
  | unclosed {k : Option Bracket} {p : Position} {h : Text ⊕ Bracket} {content : List Component} {i m : Nat} :
      src.Starts k p i → src.Opens i m h → Lies src (some (closerOf h)) m content src.text.length →
      Lies src k i [(Level.mk p h []).component content] src.text.length

namespace Lies

variable {k : Option Bracket} {cs ds : List Component} {c : Component} {i j m : Nat}

theorem le (h : Lies src k i cs j) : i ≤ j := by
  induction h with
  | nil => exact Nat.le_refl _
  | leaf _ hi _ _ _ ih => omega
  | closed _ ho _ _ _ ihc ih => have := ho.lt; omega
  | unclosed _ ho _ ih => have := ho.lt; omega

theorem lt (h : Lies src k i (c :: cs) j) : i < j := by
  cases h with
  | leaf _ _ hj _ _ => exact hj
  | closed _ ho hc _ hr => have := ho.lt; have := hc.le; have := hr.le; omega
  | unclosed _ ho hc => have := ho.lt; have := hc.le; omega

theorem starts (h : Lies src k i (c :: cs) j) : src.Starts k c.pos i := by
  cases h with
  | leaf hs _ _ _ _ => exact hs
  | @closed _ p h _ _ _ _ _ _ hs _ _ _ _ => cases h <;> exact hs
  | @unclosed _ p h _ _ _ hs _ _ => cases h <;> exact hs

theorem tail (h : Lies src k i (c :: cs) j) : ∃ m, i ≤ m ∧ Lies src k m cs j := by
  cases h with
  | leaf _ hm _ _ h => exact ⟨_, hm, h⟩
  | closed _ ho hc _ h => exact ⟨_, by have := ho.lt; have := hc.le; omega, h⟩
  | unclosed _ ho hc => exact ⟨_, by have := ho.lt; have := hc.le; omega, .nil⟩

theorem append (h : Lies src k i cs m) (h' : Lies src k m ds j) (hj : j ≤ src.text.length) :
    Lies src k i (cs ++ ds) j := by
  have hm := h'.le
  induction h with
  | nil => exact h'
  | leaf hs hi hj' hmark _ ih => exact .leaf hs hi (by omega) hmark (ih h' hm)
  | closed hs ho hc he _ _ ih => exact .closed hs ho hc he (ih h' hm)
  | unclosed hs ho hc _ =>
    cases ds with
    | nil =>
      cases h'
      exact .unclosed hs ho hc
    | cons d ds =>
      have := h'.lt
      omega

end Lies

/-- Open levels, with where the innermost one starts. -/
inductive Stacks (src : LinedText) : List Level → Option Bracket → Nat → Prop where
  | nil : Stacks src [] none 0
  | cons {k : Option Bracket} {ls : List Level} {p : Position} {h : Text ⊕ Bracket} {before : List Component}
      {s i m : Nat} :
      Stacks src ls k s → Lies src k s before.reverse i → src.Starts k p i → src.Opens i m h → m ≤ src.text.length →
      Stacks src (⟨p, h, before⟩ :: ls) (some (closerOf h)) m

/-- All that was read lies before `i`. -/
def Holds (src : LinedText) (n : Nesting) (i : Nat) : Prop :=
  ∃ k s, src.Stacks n.levels k s ∧ src.Lies k s n.current.reverse i

theorem Stacks.closer {ls : List Level} {k : Option Bracket} {s : Nat} (h : src.Stacks ls k s) (cs : List Component) :
    (Nesting.mk ls cs).closer? = k := by
  cases h with
  | nil => rfl
  | @cons _ _ _ h => cases h <;> rfl

theorem Holds.addAll {n : Nesting} {cs : List Component} {i j : Nat} (h : src.Holds n i)
    (hc : src.Lies n.closer? i cs j) (hj : j ≤ src.text.length) : src.Holds (n.addAll cs) j := by
  obtain ⟨k, s, hs, hl⟩ := h
  obtain rfl := hs.closer n.current
  refine ⟨_, s, hs, ?_⟩
  have hr : (n.addAll cs).current.reverse = n.current.reverse ++ cs := by simp [Nesting.addAll]
  rw [hr]
  exact hl.append hc hj

theorem Holds.openLevel {n : Nesting} {p : Position} {h : Text ⊕ Bracket} {i m : Nat} (hn : src.Holds n i)
    (hs : src.Starts n.closer? p i) (ho : src.Opens i m h) (hm : m ≤ src.text.length) :
    src.Holds (n.openLevel p h) m := by
  obtain ⟨k, s, hk, hl⟩ := hn
  obtain rfl := hk.closer n.current
  exact ⟨_, m, .cons hk hl hs ho hm, .nil⟩

theorem Holds.closeLevel {n : Nesting} {q : Position} {b : Bracket} {i : Nat} (h : src.Holds n i)
    (hb : n.closer? = some b) (hi : src.Has i b.closer) : src.Holds (n.step (q, .closing b)) (i + 1) := by
  obtain ⟨ls, cs⟩ := n
  obtain ⟨k, s, hk, hl⟩ := h
  obtain rfl := (hk.closer cs).symm.trans hb
  cases hk with
  | @cons k ls p h before s' i' m hk hl' hs ho hm =>
    have he : Nesting.step ⟨⟨p, h, before⟩ :: ls, cs⟩ (q, .closing (closerOf h)) =
        ⟨ls, (Level.mk p h []).component cs.reverse :: before⟩ := by
      cases h <;> simp [Nesting.step, Level.closer, closerOf, Level.component]
    rw [he]
    refine ⟨k, s', hk, ?_⟩
    have hi' := hi.lt
    rw [List.reverse_cons]
    exact hl'.append (.closed hs ho hl hi .nil) hi'

/-- The end of the text closes what is open. -/
theorem Holds.finish {n : Nesting} (h : src.Holds n src.text.length) :
    src.Lies none 0 n.finish src.text.length := by
  obtain ⟨ls, cs⟩ := n
  obtain ⟨k, s, hk, hl⟩ := h
  simp only [Nesting.finish] at hk hl ⊢
  generalize hi : src.text.length = i at hl
  induction hk generalizing cs with
  | nil => simpa [Nesting.closeAll] using hl
  | @cons k ls p h before s i' m hk hl' hs ho hm ih =>
    subst hi
    rw [Nesting.closeAll]
    refine ih _ ?_
    have hc : (Level.mk p h before).component cs.reverse = (Level.mk p h []).component cs.reverse := by
      cases h <;> rfl
    rw [List.reverse_cons, hc]
    exact hl'.append (.unclosed hs ho hl) (Nat.le_refl _)

section Reading

variable {T t v : Text} {c : CodePoint}

theorem getElem?_of_seen {x : CodePoint} (h : seen T = t ++ c :: v) (hx : (ofText T).Has t.length x) :
    c = if x = '\x00' then .char '\uFFFD' else x := by
  have hs : (seen T)[t.length]? = some c := by simp [h]
  rw [seen, List.getElem?_map, show T[t.length]? = some x from hx] at hs
  exact (Option.some.inj hs).symm

theorem has_of_seen (h : seen T = t ++ c :: v) (hc : c ≠ '\uFFFD') : (ofText T).Has t.length c := by
  have hl : t.length < T.length := by
    have := congrArg List.length h
    simp only [length_seen, List.length_append, List.length_cons] at this
    omega
  have hx : (ofText T).Has t.length T[t.length] := List.getElem?_eq_getElem hl
  have he := getElem?_of_seen h hx
  split at he
  · exact absurd he hc
  · rwa [he]

theorem starts_of_seen (h : seen T = t ++ c :: v) {k : Option Bracket} (hk : ∀ b ∈ k, c ≠ b.closer) :
    (ofText T).Starts k (Position.first.past t) t.length := by
  refine ⟨index_past h, fun b hb hh => hk b hb ?_⟩
  rw [getElem?_of_seen h hh, if_neg (by cases b <;> decide)]

/-- The character before what follows a mark is the end of the mark. -/
theorem markEndsAt_of_seen {a u : Text} (h : seen T = t ++ (c :: a) ++ v) (hu : u = "<!--" ∨ u = "-->") (ha : c :: a = u) :
    (ofText T).MarkEndsAt (t ++ c :: a).length := by
  refine ⟨by simp only [List.length_append, List.length_cons]; omega, ?_⟩
  rcases hu with rfl | rfl
  · have he : seen T = (t ++ "<!-") ++ .char '-' :: v := by rw [h, ha]; simp [Text.ofString]
    have hh := has_of_seen he (by decide)
    left
    rw [ha]
    simpa [Text.ofString] using hh
  · have he : seen T = (t ++ "--") ++ .char '>' :: v := by rw [h, ha]; simp [Text.ofString]
    have hh := has_of_seen he (by decide)
    right
    rw [ha]
    simpa [Text.ofString] using hh

/-- Reading one token. -/
theorem Holds.step {a : Text} {ls : List Lexeme} {n : Nesting} (hn : (ofText T).Holds n t.length)
    (h : seen T = t ++ (c :: a) ++ v) (hr : readToken c (a ++ v) = (ls, v)) :
    (ofText T).Holds ((ls.map (Position.first.past t, ·)).foldl Nesting.step n) (t ++ c :: a).length := by
  have hT : seen T = t ++ c :: (a ++ v) := by simpa using h
  have hlen : (t ++ c :: a).length ≤ T.length := by
    have := congrArg List.length h
    simp only [length_seen, List.length_append] at this ⊢
    omega
  have hlt : t.length < (t ++ c :: a).length := by simp
  have head (hls : ∀ b, ls ≠ [.closing b]) : (ofText T).Starts n.closer? (Position.first.past t) t.length := by
    refine starts_of_seen hT fun b _ hc => hls b ?_
    rw [hc, readToken_closer] at hr
    exact (Prod.mk.inj hr).1.symm
  have ho := outcome_readToken c (a ++ v)
  rw [hr] at ho
  generalize hs : a ++ v = s at ho
  cases ho with
  | leaf x _ hx =>
    refine hn.addAll (.leaf (head (by simp)) (Nat.le_of_lt hlt) hlt (fun hm => ⟨hlt, ?_⟩) .nil) hlen
    cases x with
    | literal u =>
      have ha : c :: a = u := List.append_cancel_right ((congrArg (c :: ·) hs).trans (hx u rfl))
      exact markEndsAt_of_seen h (by simpa [Component.isHtmlMark, Component.isMark] using hm) ha
    | _ => cases hm
  | cut x =>
    have hs := head (by simp [CutOff.lexemes])
    have hx (p : Position) : (Component.leaf p x.leaf).isHtmlMark = false := by cases x <;> rfl
    have he : (x.lexemes.map (Position.first.past t, ·)).foldl Nesting.step n =
        n.addAll [.leaf (Position.first.past t) x.leaf, .leaf (Position.first.past t) (.error x.error)] := rfl
    rw [he]
    exact hn.addAll (.leaf hs (Nat.le_refl _) hlt (by simp [hx])
      (.leaf hs (Nat.le_of_lt hlt) hlt (by simp [Component.isHtmlMark, Component.isMark]) .nil)) hlen
  | function name => exact hn.openLevel (h := .inl name) (head (by simp)) hlt hlen
  | opening b hb =>
    obtain rfl : a = [] := List.append_cancel_right (hs.trans (List.nil_append v).symm)
    subst hb
    refine hn.openLevel (h := .inr b) (head (by simp)) ⟨has_of_seen hT ?_, by simp⟩ hlen
    cases b <;> decide
  | closing b hb =>
    obtain rfl : a = [] := List.append_cancel_right (hs.trans (List.nil_append v).symm)
    subst hb
    have hb : (ofText T).Has t.length b.closer := has_of_seen hT (by cases b <;> decide)
    have hl : (t ++ [b.closer]).length = t.length + 1 := by simp
    rw [hl] at hlen hlt ⊢
    by_cases hk : n.closer? = some b
    · exact hn.closeLevel hk hb
    · have hs : (ofText T).Starts n.closer? (Position.first.past t) t.length := by
        refine starts_of_seen hT fun b' hb' hc => hk ?_
        obtain rfl : b = b' := by cases b <;> cases b' <;> first | rfl | cases hc
        exact hb'
      rw [List.map_singleton, List.foldl_cons, List.foldl_nil, Nesting.step_stray hk]
      exact hn.addAll (.leaf hs (Nat.le_of_lt hlt) hlt (by simp [Component.isHtmlMark, Component.isMark]) .nil) hlen

/-- Reading all tokens of a text. -/
theorem Holds.foldl {n : Nesting} (hn : (ofText T).Holds n t.length) (h : seen T = t ++ v) :
    (ofText T).Holds ((lexFrom (Position.first.past t) v).foldl Nesting.step n) T.length := by
  induction hl : v.length using Nat.strongRecOn generalizing t v n with
  | ind l ih =>
    subst hl
    cases v with
    | nil =>
      have hl : t.length = T.length := by rw [← length_seen T, h, List.append_nil]
      simpa [lexFrom, hl] using hn
    | cons c s =>
      obtain ⟨a, ha⟩ := readToken_suffix c s
      have h' : seen T = t ++ (c :: a) ++ (readToken c s).2 := by simp [h, ha]
      have hr : readToken c (a ++ (readToken c s).2) = ((readToken c s).1, (readToken c s).2) := by rw [ha]
      have hstep := hn.step h' hr
      have ih := ih _ (Nat.lt_succ_of_le (readToken_length c s)) hstep h' rfl
      have hcut : (c :: s).take (s.length + 1 - (readToken c s).2.length) = c :: a := by
        conv => lhs; arg 2; rw [← ha]
        have hlen : s.length = a.length + (readToken c s).2.length := by rw [← List.length_append, ha]
        rw [hlen, ← List.cons_append]
        exact List.take_left' (by simp only [List.length_cons]; omega)
      rw [lexFrom, List.foldl_append, hcut, ← Position.past_append]
      exact ih

end Reading

/-- The components of a text lie in all of it. -/
theorem lies_nest {T : Text} (hT : ∀ c ∈ T, c ≠ '\r' ∧ c ≠ '\x0c') : (ofText T).Lies none 0 (nest (lex T)) T.length := by
  have hn : (ofText T).Holds .start ([] : Text).length := ⟨none, 0, .nil, .nil⟩
  have hf := (hn.foldl (v := seen T) rfl).finish
  rw [nest, lex, preprocess_of_clean hT]
  exact hf

theorem lies_components {T : Text} (hT : ∀ c ∈ T, c ≠ '\r' ∧ c ≠ '\x0c') {cs : List Component}
    (h : components T = .ok cs) : (ofText T).Lies none 0 cs T.length := by
  unfold components at h
  split at h
  · cases h
  · obtain rfl := Except.ok.inj h
    exact lies_nest hT

end LinedText

end StylePrune.Css
