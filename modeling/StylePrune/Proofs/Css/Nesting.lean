import StylePrune.Proofs.Css.Spans

/-!
From spans to components. Spans nest to the components they stand for, and every text whose tokens are
fine reads as spans.
-/

set_option autoImplicit false

namespace StylePrune.Css

namespace Nesting

def addAll (n : Nesting) (cs : List Component) : Nesting := ⟨n.levels, cs.reverse ++ n.current⟩

@[simp] theorem addAll_nil (n : Nesting) : n.addAll [] = n := rfl

theorem addAll_append (n : Nesting) (cs ds : List Component) :
    n.addAll (cs ++ ds) = (n.addAll cs).addAll ds := by
  simp [addAll]

theorem step_leaf (n : Nesting) (p : Position) (t : Leaf) : n.step (p, .leaf t) = n.addAll [.leaf p t] := rfl

/-- The bracket that closes the innermost level. -/
def closer? (n : Nesting) : Option Bracket := n.levels.head?.map Level.closer

@[simp] theorem closer?_addAll (n : Nesting) (cs : List Component) : (n.addAll cs).closer? = n.closer? := rfl

theorem step_opener (n : Nesting) (p : Position) (h : Text ⊕ Bracket) :
    n.step (p, openerOf h) = n.openLevel p h := by
  cases h <;> rfl

theorem step_stray {n : Nesting} {b : Bracket} (h : n.closer? ≠ some b) (p : Position) :
    n.step (p, .closing b) = n.addAll [.leaf p (.error (.unmatched b))] := by
  rcases n with ⟨_ | ⟨l, ls⟩, cs⟩
  · rfl
  · have hb : l.closer ≠ b := by simpa [closer?] using h
    simp only [step, hb, if_false]
    rfl

theorem closer_openLevel (n : Nesting) (p : Position) (h : Text ⊕ Bracket) :
    (n.openLevel p h).closer? = some (closerOf h) := by
  cases h <;> rfl

theorem step_closer (n : Nesting) (p q : Position) (h : Text ⊕ Bracket) (cs : List Component) :
    ((n.openLevel p h).addAll cs).step (q, .closing (closerOf h)) =
      n.addAll [(Level.mk p h []).component cs] := by
  cases h <;> simp [openLevel, addAll, step, Level.closer, closerOf, Level.component]

theorem finish_openLevel (n : Nesting) (p : Position) (h : Text ⊕ Bracket) (cs : List Component) :
    ((n.openLevel p h).addAll cs).finish = (n.addAll [(Level.mk p h []).component cs]).finish := by
  cases h <;> simp [openLevel, addAll, finish, closeAll, Level.component]

end Nesting

theorem Position.past_cons (p : Position) (c : CodePoint) (s : Text) : p.past (c :: s) = (p.past [c]).past s :=
  p.past_append [c] s

namespace Reads

variable {k : Option Bracket} {ss : List Span} {r : Text}

theorem lexFrom_closer (b : Bracket) (p : Position) (s : Text) :
    lexFrom p (b.closer :: s) = (p, .closing b) :: lexFrom (p.past [b.closer]) s := by
  rw [lexFrom]
  simp [readToken_closer]

/-- Spans nest to their components. -/
theorem finish_foldl (h : Reads k ss r) {n : Nesting} (hk : n.closer? = k) (p : Position) :
    ((lexFrom p (textAll ss ++ r)).foldl Nesting.step n).finish =
      ((lexFrom (p.past (textAll ss)) r).foldl Nesting.step (n.addAll (componentsAll p ss))).finish := by
  induction h generalizing n p with
  | nil => simp [componentsAll]
  | stop => simp [componentsAll]
  | @leaf k a t ss r ht hr ih =>
    have ih := ih (n := n.addAll [.leaf p t]) hk (p.past a)
    rw [← Nesting.addAll_append] at ih
    simpa [componentsAll, Span.components, Span.text, ht.lexFrom, Nesting.step_leaf] using ih
  | @stray k b ss r hkb hr ih =>
    have ih := ih (n := n.addAll [.leaf p (.error (.unmatched b))]) hk (p.past [b.closer])
    rw [← Nesting.addAll_append] at ih
    simpa [componentsAll, Span.components, Span.text, lexFrom_closer, Nesting.step_stray (hk ▸ hkb),
      p.past_cons b.closer (textAll ss)] using ih
  | @cut k a x ht =>
    have ht := ht.lexFrom p
    rw [List.append_nil] at ht
    simp [componentsAll, Span.components, Span.text, CutOff.lexemes, ht, Nesting.step_leaf, ← Nesting.addAll_append]
  | @closed k o h cs ss r ht hc hr ihc ih =>
    have ihc := ihc (Nesting.closer_openLevel n p h) (p.past o)
    have ih := ih (n := n.addAll [(Level.mk p h []).component (componentsAll (p.past o) cs)]) hk
      (((p.past o).past (textAll cs)).past [(closerOf h).closer])
    rw [← Nesting.addAll_append] at ih
    rw [lexFrom_closer, List.foldl_cons, Nesting.step_closer] at ihc
    have he : textAll (.level o h cs true :: ss) ++ r =
        o ++ (textAll cs ++ (closerOf h).closer :: (textAll ss ++ r)) := by simp [Span.text]
    rw [he, ht.lexFrom, List.map_singleton, List.singleton_append, List.foldl_cons, Nesting.step_opener, ihc, ih]
    simp [componentsAll, Span.components, Span.text, Position.past_cons _ (closerOf h).closer (textAll ss)]
  | @unclosed k o h cs ht hc ihc =>
    have ihc := ihc (Nesting.closer_openLevel n p h) (p.past o)
    have he : textAll [.level o h cs false] ++ [] = o ++ textAll cs := by simp [Span.text]
    rw [he, ht.lexFrom, List.map_singleton, List.singleton_append, List.foldl_cons, Nesting.step_opener]
    rw [List.append_nil] at ihc
    simp [ihc, lexFrom, Nesting.finish_openLevel, componentsAll, Span.components]

theorem fine_of_mem_lexFrom (h : Reads k ss r) {p : Position} {x : Position × Lexeme}
    (hx : x ∈ lexFrom p (textAll ss ++ r)) : x.2.Fine ∨ x ∈ lexFrom (p.past (textAll ss)) r := by
  have token {a v : Text} {ls : List Lexeme} {p : Position} (ht : Token a v ls) (hx : x ∈ lexFrom p (a ++ v)) :
      x.2.Fine ∨ x ∈ lexFrom (p.past a) v := by
    rw [ht.lexFrom] at hx
    refine (List.mem_append.1 hx).imp_left fun hx => ?_
    obtain ⟨l, hl, rfl⟩ := List.mem_map.1 hx
    exact ht.fine l hl
  have closer {b : Bracket} {s : Text} {p : Position} (hx : x ∈ lexFrom p (b.closer :: s)) :
      x.2.Fine ∨ x ∈ lexFrom (p.past [b.closer]) s := by
    rw [lexFrom_closer] at hx
    refine (List.mem_cons.1 hx).imp_left ?_
    rintro rfl
    exact ⟨rfl, by simp, by simp⟩
  induction h generalizing p with
  | nil => exact .inr hx
  | stop => exact .inr hx
  | leaf ht hr ih =>
    rw [textAll_cons, List.append_assoc] at hx
    rw [textAll_cons, Position.past_append]
    exact (token ht hx).elim .inl ih
  | stray hkb hr ih =>
    rw [textAll_cons, List.append_assoc] at hx
    rw [textAll_cons, Position.past_append]
    exact (closer hx).elim .inl ih
  | cut ht =>
    rw [textAll_cons, textAll_nil, List.append_nil] at hx ⊢
    exact token ht hx
  | @closed k o h cs ss r ht hc hr ihc ih =>
    have he : textAll (.level o h cs true :: ss) ++ r =
        o ++ (textAll cs ++ (closerOf h).closer :: (textAll ss ++ r)) := by simp [Span.text]
    rw [he] at hx
    simp only [textAll_cons, Span.text, if_true, Position.past_append]
    refine (token ht hx).elim .inl fun hx => (ihc hx).elim .inl fun hx => (closer hx).elim .inl ih
  | @unclosed k o h cs ht hc ihc =>
    have he : textAll [.level o h cs false] ++ [] = o ++ textAll cs := by simp [Span.text]
    rw [he] at hx
    refine (token ht hx).elim .inl fun hx => (ihc (by simpa using hx)).elim .inl fun hx => ?_
    simp [lexFrom] at hx

/-- A text that spans cover has the components of the spans. -/
theorem components_eq (h : Reads none ss []) {s : Text} (hs : textAll ss = preprocess s) :
    components s = .ok (componentsAll .first ss) := by
  have hf : (lex s).findSome? (fun t => t.2.tooLong?) = none := by
    refine List.findSome?_eq_none_iff.2 fun x hx => ?_
    rw [lex, ← hs, ← List.append_nil (textAll ss)] at hx
    rcases h.fine_of_mem_lexFrom hx with hx | hx
    · exact hx.1
    · simp [lexFrom] at hx
  have hn := h.finish_foldl (n := .start) rfl .first
  rw [List.append_nil, hs] at hn
  rw [components, hf, nest, lex, hn]
  simp [lexFrom, Nesting.start, Nesting.addAll, Nesting.finish, Nesting.closeAll]

end Reads

theorem exists_token {p : Position} {c : CodePoint} {s : Text} (hc : ∀ d ∈ c :: s, d ≠ '\r' ∧ d ≠ '\x0c')
    (hf : ∀ x ∈ lexFrom p (c :: s), x.2.Fine) :
    ∃ a v ls, c :: s = a ++ v ∧ Token a v ls ∧ Outcome c s (ls, v) := by
  obtain ⟨a, ha⟩ := readToken_suffix c s
  have hs : c :: s = (c :: a) ++ (readToken c s).2 := by rw [List.cons_append, ha]
  refine ⟨c :: a, (readToken c s).2, (readToken c s).1, hs, ⟨⟨c, s, hs.symm, rfl⟩, fun d hd => ?_, fun l hl => ?_⟩,
    outcome_readToken c s⟩
  · exact hc d (hs ▸ List.mem_append_left _ hd)
  · rw [lexFrom] at hf
    exact hf _ (List.mem_append_left _ (List.mem_map_of_mem hl))

/-- A text without carriage returns and form feeds whose tokens are fine reads as spans. -/
theorem exists_reads (k : Option Bracket) {p : Position} {s : Text} (hc : ∀ c ∈ s, c ≠ '\r' ∧ c ≠ '\x0c')
    (hf : ∀ x ∈ lexFrom p s, x.2.Fine) :
    ∃ ss r, s = textAll ss ++ r ∧ Reads k ss r ∧ ∀ x ∈ lexFrom (p.past (textAll ss)) r, x.2.Fine := by
  induction hl : s.length using Nat.strongRecOn generalizing s p k with
  | ind n ih =>
  subst hl
  cases s with
  | nil => exact ⟨[], [], rfl, .nil, hf⟩
  | cons c s =>
  obtain ⟨a, v, ls, hs, ht, ho⟩ := exists_token hc hf
  have hlv : v.length < (c :: s).length := by
    obtain ⟨d, a', rfl, -⟩ := ht.exists_cons
    rw [hs]
    simp only [List.length_append, List.length_cons]
    omega
  rw [hs] at hc hf
  rw [ht.lexFrom] at hf
  have hcv : ∀ d ∈ v, d ≠ '\r' ∧ d ≠ '\x0c' := fun d hd => hc d (List.mem_append_right a hd)
  have hfv : ∀ x ∈ lexFrom (p.past a) v, x.2.Fine := fun x hx => hf x (List.mem_append_right _ hx)
  rw [hs]
  have level {h : Text ⊕ Bracket} (ht : Token a v [openerOf h]) :
      ∃ ss r, a ++ v = textAll ss ++ r ∧ Reads k ss r ∧ ∀ x ∈ lexFrom (p.past (textAll ss)) r, x.2.Fine := by
    obtain ⟨cs, r, rfl, hr, hfr⟩ := ih _ hlv (some (closerOf h)) hcv hfv rfl
    rcases hr.rest with rfl | ⟨b, r, hb, rfl⟩
    · exact ⟨[.level a h cs false], [], by simp [Span.text], .unclosed (by simpa using ht) hr, by simp [lexFrom]⟩
    · obtain rfl := Option.some.inj hb
      rw [Reads.lexFrom_closer] at hfr
      have hlr : r.length < (c :: s).length := by
        simp only [List.length_append, List.length_cons] at hlv ⊢
        omega
      obtain ⟨ss, r, rfl, hr', hfr'⟩ := ih _ hlr k (fun d hd => hcv d (by simp [hd]))
        (fun x hx => hfr x (List.mem_cons_of_mem _ hx)) rfl
      refine ⟨.level a h cs true :: ss, r, by simp [Span.text], .closed ht hr hr', ?_⟩
      simpa [Span.text, Position.past_cons _ (closerOf h).closer (textAll ss)] using hfr'
  cases ho with
  | leaf t _ _ =>
    obtain ⟨ss, r, rfl, hr, hfr⟩ := ih _ hlv k hcv hfv rfl
    exact ⟨.leaf a t :: ss, r, by simp [Span.text], .leaf ht hr, by simpa [Span.text] using hfr⟩
  | cut x => exact ⟨[.cut a x], [], by simp [Span.text], .cut ht, by simp [lexFrom]⟩
  | function name => exact level (h := .inl name) ht
  | opening b hb => exact level (h := .inr b) ht
  | closing b hb =>
    obtain rfl : a = [c] := by
      rw [← List.singleton_append] at hs
      exact (List.append_cancel_right hs).symm
    subst hb
    by_cases hk : k = some b
    · subst hk
      refine ⟨[], b.closer :: s, rfl, .stop, fun x hx => hf x ?_⟩
      rwa [← ht.lexFrom]
    · obtain ⟨ss, r, rfl, hr, hfr⟩ := ih _ hlv k hcv hfv rfl
      exact ⟨.leaf [b.closer] (.error (.unmatched b)) :: ss, r, by simp [Span.text], .stray hk hr,
        by simpa [Span.text, Position.past_cons _ b.closer (textAll ss)] using hfr⟩

end StylePrune.Css
