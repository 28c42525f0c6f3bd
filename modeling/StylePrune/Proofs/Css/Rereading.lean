import StylePrune.Proofs.Css.Faithful
import StylePrune.Proofs.Css.Braces

/-!
Reading a tree again that reads back: the rendered text gives the same tree, up to what a style rule and a
statement keep beside their text.
-/

set_option autoImplicit false

namespace StylePrune.Css

/-- Nodes with the same text, and with the same selectors in the same places. -/
structure Agrees (ns ms : List Node) : Prop where
  render : renderAll ms = renderAll ns
  uses : ∀ media, usesAll media ms = usesAll media ns
  selectors : (blocksAll ms).map Block.selectors = (blocksAll ns).map Block.selectors

namespace Agrees

variable {ns ms cs ds : List Node}

theorem nil : Agrees [] [] := ⟨rfl, fun _ => rfl, rfl⟩

theorem blocks_of_outline? {n : Node} {l x : Text} {sel : Option (List Text)} (h : n.outline? = some (l, x, sel)) :
    n.blocks.map Block.selectors = sel.toList ∧ ∀ media, n.uses media = (sel.getD []).map (·, media) := by
  cases n with
  | block b =>
    obtain ⟨s, hs, he⟩ := Option.map_eq_some_iff.1 h
    obtain ⟨-, -, rfl⟩ := by simpa using he
    exact ⟨rfl, fun media => rfl⟩
  | group g cs t => cases h
  | statement s =>
    obtain ⟨-, -, rfl⟩ := by simpa [Node.outline?] using h
    exact ⟨rfl, fun media => rfl⟩

theorem cons {n m : Node} {l x : Text} {sel : Option (List Text)} (hn : n.outline? = some (l, x, sel))
    (hm : m.outline? = some (l, x, sel)) (h : Agrees ns ms) : Agrees (n :: ns) (m :: ms) := by
  obtain ⟨hbn, hun⟩ := blocks_of_outline? hn
  obtain ⟨hbm, hum⟩ := blocks_of_outline? hm
  refine ⟨?_, fun media => ?_, ?_⟩
  · simp [renderAll, Node.render_of_outline? hn, Node.render_of_outline? hm, h.render]
  · simp [usesAll, hun, hum, h.uses]
  · simp [blocksAll, hbn, hbm, h.selectors]

theorem consGroup {g : Group} {t : Text} (hc : Agrees cs ds) (h : Agrees ns ms) :
    Agrees (.group g cs t :: ns) (.group g ds t :: ms) := by
  refine ⟨?_, fun media => ?_, ?_⟩
  · simp [renderAll, Node.render, hc.render, h.render]
  · simp [usesAll, Node.uses, hc.uses, h.uses]
  · simp [blocksAll, Node.blocks, hc.selectors, h.selectors]

end Agrees

@[simp] theorem seen_braces (n : Nat) : seen (braces n) = braces n := by
  induction n with
  | zero => rfl
  | succ n ih => exact congrArg (List.cons _) ih

theorem Ending.Fits.seen {e : Ending} {r : Text} (h : e.Fits r) : e.Fits (seen r) := by
  cases e with
  | closed =>
    obtain ⟨r', rfl⟩ := h
    exact ⟨_, rfl⟩
  | «open» d =>
    obtain rfl := h
    exact seen_braces d

theorem LinedText.slice_middle (t u w : Text) :
    (ofText (t ++ u ++ w)).slice t.length (t ++ u).length = u := by
  simp [slice, ofText]

/-- What some nodes need to be read again: spans of their text that read as nodes like them wherever they stand. -/
def Rereads (e : Ending) (ns : List Node) (tr : Text) : Prop :=
  ∃ ss, e.Covers (seen (renderAll ns ++ tr)) ss ∧
    ∀ t r, e.Fits r → ∃ ms, (LinedText.ofText (t ++ (renderAll ns ++ tr) ++ r)).read
      (Rule.ofComponents (componentsAll (Position.first.past (seen t)) ss)) [] (t ++ (renderAll ns ++ tr)).length =
        .ok (ms, tr) ∧ Agrees ns ms

theorem rereads_trail {e : Ending} {tr : Text} {qs : List Span} (hq : ∀ s ∈ qs, s.role? = some .trivia)
    (hc : e.Covers (seen tr) qs) : Rereads e [] tr := by
  refine ⟨qs, hc, fun t r hr => ⟨[], ?_, .nil⟩⟩
  change (LinedText.ofText (t ++ tr ++ r)).read _ [] (t ++ tr).length = _
  cases qs with
  | nil =>
    have htr : tr = [] := by simpa [seen] using hc.eq_nil
    rw [componentsAll, LinedText.read_nil, htr]
  | cons s qs =>
    obtain ⟨w, hw, -⟩ := hc.exists_rest hr.seen
    have hT : seen (t ++ tr ++ r) = seen t ++ textAll (s :: qs) ++ w := by
      rw [List.append_assoc, List.append_assoc, seen_append, seen_append, hw]
    have hle (us : List Span) (u : Span) (vs : List Span) (he : s :: qs = us ++ u :: vs) :
        (seen t ++ textAll us).length ≤ (t ++ tr).length := by
      have hl := Ending.Covers.length_lt (he ▸ hc)
      simp only [List.length_append, length_seen] at hl ⊢
      omega
    rw [← List.append_nil (componentsAll _ _), LinedText.read_triviaCons hq hT (LinedText.startOf_nil _ _) hle,
      length_seen, LinedText.slice_middle, LinedText.read_nil]
    rfl

/-- Where the spans of some nodes start, or where the nodes stop when there are none. -/
theorem startOf_spans {e : Ending} {T t s w : Text} {ss : List Span} (hc : e.Covers s ss) (hT : seen T = t ++ textAll ss ++ w)
    (hf : ∀ s ∈ ss, s.Fine) {x : List Node × Text} {pending : Text} {stop : Nat}
    (h : (LinedText.ofText T).read (Rule.ofComponents (componentsAll (Position.first.past t) ss)) pending stop = .ok x) :
    (LinedText.ofText T).startOf (Rule.ofComponents (componentsAll (Position.first.past t) ss)) (t ++ s).length =
      t.length := by
  by_cases hs : ss = []
  · subst hs
    rw [componentsAll, LinedText.startOf_nil, hc.eq_nil, List.append_nil]
  · rw [LinedText.startOf_of_read hf hs h, LinedText.index_past (u := textAll ss ++ w) (by simpa using hT)]

theorem rereads_last {e : Ending} {n : Node} {l x : Text} {sel : Option (List Text)} {qs us : List Span} {ended : Bool}
    (ho : n.outline? = some (l, x, sel)) (hq : ∀ s ∈ qs, s.role? = some .trivia) (hl : textAll qs = seen l)
    (hs : Solo us sel ended) (hc : e.Covers (seen (l ++ x)) (qs ++ us)) : Rereads e [n] [] := by
  have hr : renderAll [n] ++ [] = l ++ x := by simp [renderAll, Node.render_of_outline? ho]
  refine ⟨qs ++ us, by rwa [hr], fun t r _ => ?_⟩
  rw [hr]
  have hT : seen (t ++ (l ++ x) ++ r) = seen t ++ textAll qs ++ seen (x ++ r) := by simp [hl]
  have hlen : (seen t ++ textAll qs).length = (t ++ l).length := by simp [hl]
  obtain ⟨m, hm, h⟩ := LinedText.read_node hq hT hs [] (fun _ => rfl) (t ++ (l ++ x)).length
  have h₁ : (LinedText.ofText (t ++ (l ++ x) ++ r)).slice t.length (t ++ l).length = l := by
    simpa using LinedText.slice_middle t l (x ++ r)
  have h₂ : (LinedText.ofText (t ++ (l ++ x) ++ r)).slice (t ++ l).length (t ++ (l ++ x)).length = x := by
    simpa using LinedText.slice_middle (t ++ l) x r
  rw [LinedText.startOf_nil, hlen, length_seen, h₁, h₂] at hm
  rw [List.append_nil, LinedText.read_nil] at h
  exact ⟨[m], h, .cons ho hm .nil⟩

theorem Ending.Covers.stand {e : Ending} {s : Text} {us ss : List Span} (h : e.Covers s ss)
    (hu : Stands e.level us) : e.Covers (textAll us ++ s) (us ++ ss) := by
  cases e with
  | closed => exact ⟨by rw [textAll_append, h.1], fun r => hu ss _ (h.2 r)⟩
  | «open» d =>
    obtain ⟨b, hb, he, hs⟩ := h
    exact ⟨b, hb, by rw [textAll_append, List.append_assoc, he, List.append_assoc], hu ss _ hs⟩

theorem Ending.Covers.fine {e : Ending} {s : Text} {ss : List Span} (h : e.Covers s ss) : ∀ s ∈ ss, s.Fine := by
  cases e with
  | closed => exact (h.2 []).fine
  | «open» d =>
    obtain ⟨b, -, -, hs⟩ := h
    exact hs.fine

theorem rereads_cons {e : Ending} {n : Node} {l x tr : Text} {sel : Option (List Text)} {qs us : List Span}
    {ns : List Node} (ho : n.outline? = some (l, x, sel)) (hq : ∀ s ∈ qs, s.role? = some .trivia)
    (hl : textAll qs = seen l) (hx : textAll us = seen x) (hs : Solo us sel true) (hst : Stands e.level (qs ++ us))
    (ih : Rereads e ns tr) : Rereads e (n :: ns) tr := by
  obtain ⟨ss, hc, ih⟩ := ih
  have hr : renderAll (n :: ns) ++ tr = (l ++ x) ++ (renderAll ns ++ tr) := by
    simp [renderAll, Node.render_of_outline? ho]
  have hqu : textAll (qs ++ us) = seen (l ++ x) := by simp [hl, hx]
  refine ⟨(qs ++ us) ++ ss, ?_, fun t r hf => ?_⟩
  · rw [hr, seen_append, ← hqu]
    exact hc.stand hst
  · obtain ⟨ms, hm, ha⟩ := ih (t ++ (l ++ x)) r hf
    obtain ⟨w, hw, -⟩ := hc.exists_rest hf.seen
    rw [hr]
    have hT' : t ++ (l ++ x ++ (renderAll ns ++ tr)) ++ r = (t ++ (l ++ x)) ++ (renderAll ns ++ tr) ++ r := by simp
    rw [hT', ← List.append_assoc t (l ++ x)]
    generalize hT : t ++ (l ++ x) ++ (renderAll ns ++ tr) ++ r = T at hm
    have hT₁ : seen T = seen t ++ textAll qs ++ seen (x ++ (renderAll ns ++ tr) ++ r) := by simp [← hT, hl]
    have hT₂ : seen T = seen (t ++ (l ++ x)) ++ textAll ss ++ w := by
      rw [← hT, List.append_assoc, seen_append, seen_append _ r, hw, List.append_assoc]
    have hj := startOf_spans hc hT₂ hc.fine hm
    rw [← seen_append, length_seen, length_seen] at hj
    obtain ⟨m, hmo, hmr⟩ := LinedText.read_node hq hT₁ hs
      (componentsAll (Position.first.past (seen (t ++ (l ++ x)))) ss) (by simp)
      (t ++ (l ++ x) ++ (renderAll ns ++ tr)).length
    have hp : (Position.first.past (seen t)).past (textAll (qs ++ us)) = Position.first.past (seen (t ++ (l ++ x))) := by
      rw [← Position.past_append, hqu, ← seen_append]
    have hlen : (seen t ++ textAll qs).length = (t ++ l).length := by simp [hl]
    have h₁ : (LinedText.ofText T).slice t.length (t ++ l).length = l := by
      simpa [← hT] using LinedText.slice_middle t l (x ++ (renderAll ns ++ tr) ++ r)
    have h₂ : (LinedText.ofText T).slice (t ++ l).length (t ++ (l ++ x)).length = x := by
      simpa [← hT] using LinedText.slice_middle (t ++ l) x ((renderAll ns ++ tr) ++ r)
    rw [hj, hlen, length_seen, h₁, h₂] at hmo
    rw [hm] at hmr
    refine ⟨m :: ms, ?_, .cons ho hmo ha⟩
    rw [componentsAll_append, hp, hmr]
    rfl

/-- The text of a group up to its content. -/
def Group.opening (g : Group) : Text := g.leading ++ g.head ++ [Bracket.curly.opener]

theorem Node.render_group (g : Group) (cs : List Node) (tr : Text) :
    (Node.group g cs tr).render = g.opening ++ (renderAll cs ++ tr) ++ [Bracket.curly.closer] := by
  simp [Node.render, Group.opening, Bracket.opener, Bracket.closer]

section Opened

variable {g : Group} {T t s r : Text}

theorem Group.slice_leading (hT : T = t ++ (g.opening ++ s ++ [Bracket.curly.closer]) ++ r) :
    (LinedText.ofText T).slice t.length (t ++ g.leading).length = g.leading := by
  have h := LinedText.slice_middle t g.leading (g.head ++ [Bracket.curly.opener] ++ s ++ [Bracket.curly.closer] ++ r)
  simpa [hT, Group.opening] using h

theorem Group.slice_head (hT : T = t ++ (g.opening ++ s ++ [Bracket.curly.closer]) ++ r) :
    (LinedText.ofText T).slice (t ++ g.leading).length ((t ++ g.opening).length - 1) = g.head := by
  have h := LinedText.slice_middle (t ++ g.leading) g.head ([Bracket.curly.opener] ++ s ++ [Bracket.curly.closer] ++ r)
  have hlen : (t ++ g.opening).length - 1 = (t ++ g.leading ++ g.head).length := by
    simp only [Group.opening, List.length_append, List.length_cons, List.length_nil]
    omega
  rw [hlen]
  simpa [hT, Group.opening] using h

theorem Group.contentStop (hT : T = t ++ (g.opening ++ s ++ [Bracket.curly.closer]) ++ r) :
    (LinedText.ofText T).contentStop (t ++ g.leading).length (t ++ (g.opening ++ s ++ [Bracket.curly.closer])).length =
      (t ++ g.opening ++ s).length := by
  have h := LinedText.slice_middle (t ++ g.leading) (g.head ++ [Bracket.curly.opener] ++ s ++ [Bracket.curly.closer]) r
  have hs : (LinedText.ofText T).slice (t ++ g.leading).length
      (t ++ (g.opening ++ s ++ [Bracket.curly.closer])).length =
        g.head ++ [Bracket.curly.opener] ++ s ++ [Bracket.curly.closer] := by
    simpa [hT, Group.opening] using h
  rw [LinedText.contentStop, hs, if_pos (LinedText.endsWith_brace_iff.2 List.getLast?_concat)]
  simp only [List.length_append, List.length_cons, List.length_nil]
  omega

end Opened

/-- The spans of a group from its name to its end. -/
abbrev groupSpans (a name : Text) (us cs : List Span) (c : Bool) : List Span :=
  .leaf a (.atKeyword name) :: us ++ [.level [Bracket.curly.opener] (.inr .curly) cs c]

theorem textAll_groupSpans (a name : Text) (us cs : List Span) (c : Bool) :
    textAll (groupSpans a name us cs c) =
      a ++ textAll us ++ [Bracket.curly.opener] ++ textAll cs ++ (if c then [Bracket.curly.closer] else []) := by
  simp [Span.text, closerOf]

/-- Spans of a group, its content read already. -/
theorem read_opened {g : Group} {qs us : List Span} {a name : Text} (hq : ∀ s ∈ qs, s.role? = some .trivia)
    (hl : textAll qs = seen g.leading) (hu : ∀ s ∈ us, s.isPlain = true) (hh : a ++ textAll us = seen g.head)
    (hn : Text.asciiLower name = g.name) (hg : g.name ∈ groupNames)
    (hp : Selector.normalize (writeAll (componentsAll .first us)) = g.prelude) {e : Ending} {cs ms : List Node} {tr : Text}
    {ss : List Span} (hc : e.Covers (seen (renderAll cs ++ tr)) ss) {T t r : Text}
    (hT : T = t ++ (Node.group g cs tr).render ++ r) (hf : e.Fits (Bracket.curly.closer :: r))
    (hin : (LinedText.ofText T).read (Rule.ofComponents (componentsAll (Position.first.past (seen (t ++ g.opening))) ss)) []
      (t ++ g.opening ++ (renderAll cs ++ tr)).length = .ok (ms, tr))
    (c : Bool) {ds : List Component} {stop : Nat}
    (hj : (LinedText.ofText T).startOf (Rule.ofComponents ds) stop = (t ++ (Node.group g cs tr).render).length) :
    (LinedText.ofText T).read (Rule.ofComponents (componentsAll (Position.first.past (seen t))
        (qs ++ groupSpans a name us ss c) ++ ds)) [] stop =
      ((LinedText.ofText T).read (Rule.ofComponents ds) [] stop).map fun rest => (.group g ms tr :: rest.1, rest.2) := by
  obtain ⟨w, hw, -⟩ := hc.exists_rest hf.seen
  rw [Node.render_group] at hT hj
  have hT₁ : seen T = seen t ++ textAll qs ++ seen (g.head ++ [Bracket.curly.opener] ++ (renderAll cs ++ tr) ++
      [Bracket.curly.closer] ++ r) := by simp [hT, hl, Group.opening]
  have hpos : seen t ++ textAll qs ++ a ++ textAll us ++ [Bracket.curly.opener] = seen (t ++ g.opening) := by
    rw [hl, List.append_assoc _ a, hh]
    simp [Group.opening]
    rfl
  have hT₂ : seen T = seen (t ++ g.opening) ++ textAll ss ++ w := by
    have he : seen (renderAll cs ++ tr) ++ seen (Bracket.curly.closer :: r) = textAll ss ++ w := hw
    rw [hT, List.append_assoc _ (textAll ss), ← he, ← seen_append, ← seen_append]
    simp
  have hstart : (seen t ++ textAll qs).length = (t ++ g.leading).length := by simp [hl]
  have hfirst := startOf_spans hc hT₂ hc.fine hin
  rw [← seen_append, length_seen, length_seen] at hfirst
  simp only [LinedText.read_groupNode hq hu (hn ▸ hg) hT₁, hpos, hj, hstart, Group.contentStop hT, hin, hfirst, length_seen,
    Group.slice_leading hT, Group.slice_head hT, hn, hp]

theorem Token.opener (b : Bracket) (v : Text) : Token [b.opener] v [.opening b] := by
  refine ⟨⟨b.opener, v, rfl, readToken_opener b v⟩, ?_, ?_⟩
  · cases b <;> simp [Bracket.opener]
  · simp [Lexeme.Fine, Lexeme.tooLong?]

theorem Ending.reads_nil {b d : Nat} (h : b ≤ d) : Reads (Ending.open d).level [] (braces b) := by
  cases d with
  | zero =>
    obtain rfl := Nat.le_zero.1 h
    exact .nil
  | succ d =>
    cases b with
    | zero => exact .nil
    | succ b => exact .stop

theorem rereads_lastGroup {d : Nat} {g : Group} {cs : List Node} {tr : Text} (ho : g.Opens (Ending.open d).level)
    (ih : Rereads (.open (d + 1)) cs tr) : Rereads (.open d) [.group g cs tr] [] := by
  obtain ⟨qs, us, a, name, hq, hl, hu, hh, hn, hg, hp, hlead⟩ := ho
  obtain ⟨ss, hc, ih⟩ := ih
  have hr : renderAll [Node.group g cs tr] ++ [] = (Node.group g cs tr).render := by simp [renderAll]
  have hopen : textAll qs ++ (a ++ textAll us) ++ [Bracket.curly.opener] = seen g.opening := by
    simp [hl, hh, Group.opening]
    rfl
  obtain ⟨c, hcov⟩ : ∃ c, (Ending.open d).Covers (seen (Node.group g cs tr).render)
      (qs ++ groupSpans a name us ss c) := by
    obtain ⟨b, hb, he, hs⟩ := hc
    have hrender : seen (Node.group g cs tr).render ++ braces d = seen g.opening ++ (textAll ss ++ braces b) := by
      rw [he, Node.render_group]
      simp only [seen_append, List.append_assoc]
      rfl
    cases b with
    | zero =>
      -- the content takes all the braces
      refine ⟨false, 0, Nat.zero_le d, ?_, ?_⟩
      · rw [hrender, ← hopen]
        simp [Span.text, braces]
      · rw [← List.append_assoc]
        exact hlead _ _ _ (by simp [Span.text]; rfl) (.unclosed (Token.opener .curly _) hs)
    | succ b =>
      refine ⟨true, b, Nat.le_of_succ_le_succ hb, ?_, ?_⟩
      · rw [hrender, ← hopen]
        simp [Span.text, closerOf]
        rfl
      · rw [← List.append_assoc]
        refine hlead _ _ _ (by simp [Span.text]; rfl) (.closed (Token.opener .curly _) ?_ ?_)
        · exact hs
        · exact Ending.reads_nil (Nat.le_of_succ_le_succ hb)
  refine ⟨_, by rwa [hr], fun t r hf => ?_⟩
  obtain rfl := hf
  obtain ⟨ms, hm, ha⟩ := ih (t ++ g.opening) (braces (d + 1)) rfl
  have hT : t ++ g.opening ++ (renderAll cs ++ tr) ++ braces (d + 1) = t ++ (Node.group g cs tr).render ++ braces d := by
    rw [Node.render_group]
    simp only [List.append_assoc, List.singleton_append]
    rfl
  rw [hT] at hm
  have h := read_opened hq hl hu hh hn hg hp hc rfl (r := braces d) rfl hm c
    (LinedText.startOf_nil _ (t ++ (Node.group g cs tr).render).length)
  rw [List.append_nil, LinedText.read_nil] at h
  rw [hr]
  exact ⟨_, h, .consGroup ha .nil⟩

theorem rereads_consGroup {e : Ending} {g : Group} {cs ns : List Node} {t tr : Text} (ho : g.Opens e.level)
    (ihc : Rereads .closed cs t) (ih : Rereads e ns tr) : Rereads e (.group g cs t :: ns) tr := by
  obtain ⟨qs, us, a, name, hq, hl, hu, hh, hn, hg, hp, hlead⟩ := ho
  obtain ⟨ss, hc, ihc⟩ := ihc
  obtain ⟨zs, hz, ih⟩ := ih
  let own := qs ++ groupSpans a name us ss true
  have hr : renderAll (Node.group g cs t :: ns) ++ tr = (Node.group g cs t).render ++ (renderAll ns ++ tr) := by
    simp [renderAll]
  have hown : textAll own = seen (Node.group g cs t).render := by
    rw [Node.render_group, seen_append, seen_append, ← hc.1]
    simp only [own, textAll_append, textAll_cons, textAll_nil, Span.text, hl, Group.opening, seen_append, ← hh]
    simp [closerOf]
    rfl
  have hstand : Stands e.level own := fun us r h => by
    simp only [own]
    rw [← List.append_assoc, List.append_assoc _ [_] us]
    exact hlead _ _ _ (by simp [Span.text]; rfl) (.closed (Token.opener .curly _) (hc.2 _) h)
  refine ⟨own ++ zs, ?_, fun s r hf => ?_⟩
  · rw [hr, seen_append, ← hown]
    exact hz.stand hstand
  · obtain ⟨cms, hcm, hca⟩ := ihc (s ++ g.opening) (Bracket.curly.closer :: (renderAll ns ++ tr ++ r)) ⟨_, rfl⟩
    obtain ⟨ms, hm, ha⟩ := ih (s ++ (Node.group g cs t).render) r hf
    obtain ⟨w, hw, -⟩ := hz.exists_rest hf.seen
    rw [hr]
    have hT₁ : s ++ g.opening ++ (renderAll cs ++ t) ++ Bracket.curly.closer :: (renderAll ns ++ tr ++ r) =
        s ++ ((Node.group g cs t).render ++ (renderAll ns ++ tr)) ++ r := by
      rw [Node.render_group]
      simp
    have hT₂ : s ++ (Node.group g cs t).render ++ (renderAll ns ++ tr) ++ r =
        s ++ ((Node.group g cs t).render ++ (renderAll ns ++ tr)) ++ r := by simp
    have hT₃ : s ++ ((Node.group g cs t).render ++ (renderAll ns ++ tr)) ++ r =
        s ++ (Node.group g cs t).render ++ (renderAll ns ++ tr ++ r) := by simp
    rw [hT₁] at hcm
    rw [hT₂] at hm
    generalize s ++ ((Node.group g cs t).render ++ (renderAll ns ++ tr)) ++ r = T at hcm hm hT₂ hT₃ ⊢
    have hT₄ : seen T = seen (s ++ (Node.group g cs t).render) ++ textAll zs ++ w := by
      rw [hT₃, seen_append, seen_append _ r, hw, List.append_assoc]
    have hj := startOf_spans hz hT₄ hz.fine hm
    rw [← seen_append, length_seen, length_seen] at hj
    have h := read_opened hq hl hu hh hn hg hp hc hT₃ ⟨_, rfl⟩ hcm true hj
    have hpos : (Position.first.past (seen s)).past (textAll own) =
        Position.first.past (seen (s ++ (Node.group g cs t).render)) := by
      rw [← Position.past_append, hown, ← seen_append]
    refine ⟨.group g cms t :: ms, ?_, .consGroup hca ha⟩
    rw [componentsAll_append, hpos, ← List.append_assoc s, h, hm]
    rfl

/-- Nodes that read back are read again from their text. -/
theorem Faithful.rereads {e : Ending} {ns : List Node} {tr : Text} (h : Faithful e ns tr) : Rereads e ns tr := by
  induction h with
  | trail hq hc => exact rereads_trail hq hc
  | last ho hq hl hs hc => exact rereads_last ho hq hl hs hc
  | cons ho hq hl hx hs hst _ ih => exact rereads_cons ho hq hl hx hs hst ih
  | lastGroup ho _ ih => exact rereads_lastGroup ho ih
  | consGroup ho _ _ ihc ih => exact rereads_consGroup ho ihc ih

end StylePrune.Css
