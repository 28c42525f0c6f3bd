import StylePrune.Proofs.Css.Rules
import StylePrune.Proofs.Css.Places
import StylePrune.Proofs.Css.Offsets

/-!
Reading the nodes of spans: what a style rule, a statement and a group give, where each of them starts,
and where the next one does.
-/

set_option autoImplicit false

namespace StylePrune.Css

/-- Of a node without children: the text before it, its text, and the selectors of a style rule. -/
def Node.outline? : Node → Option (Text × Text × Option (List Text))
  | .block b => b.source.map fun s => (b.leading, s, some b.selectors)
  | .statement s => some (s.leading, s.source, none)
  | .group .. => none

theorem Node.render_of_outline? {n : Node} {l x : Text} {sel : Option (List Text)} (h : n.outline? = some (l, x, sel)) :
    n.render = l ++ x := by
  cases n with
  | block b =>
    obtain ⟨s, hs, he⟩ := Option.map_eq_some_iff.1 h
    obtain ⟨rfl, rfl, -⟩ := by simpa using he
    simp [Node.render, Block.render, hs]
  | group g cs t => cases h
  | statement s =>
    obtain ⟨rfl, rfl, -⟩ := by simpa [Node.outline?] using h
    rfl

/-- Spans of one node without children, with the selectors where it is a style rule, and whether it ends
by itself. A statement without an end takes everything up to the end of its level. -/
inductive Solo : List Span → Option (List Text) → Bool → Prop where
  | style {ss cs : List Span} {o : Text} {c : Bool} :
      (∀ s ∈ ss, s.isCurly = false) →
      (∀ s ∈ (ss ++ [Span.level o (.inr .curly) cs c]).head?, Rule.StartsQualified s) →
      (componentsAll .first ss).findSome? Component.error? = none →
      Solo (ss ++ [.level o (.inr .curly) cs c]) (some (selectorsOf (componentsAll .first ss))) true
  | block {a name o : Text} {ss cs : List Span} {c : Bool} :
      (∀ s ∈ ss, s.isPlain = true) → Text.asciiLower name ∉ groupNames →
      Solo (.leaf a (.atKeyword name) :: ss ++ [.level o (.inr .curly) cs c]) none true
  | semicolon {a name : Text} {ss : List Span} {s : Span} :
      (∀ s ∈ ss, s.isPlain = true) → s.role? = some .semicolon →
      Solo (.leaf a (.atKeyword name) :: ss ++ [s]) none true
  | pending {a name : Text} {ss : List Span} :
      (∀ s ∈ ss, s.isPlain = true) → Solo (.leaf a (.atKeyword name) :: ss) none false

theorem exists_splitWhile {α : Type} (f : α → Bool) (xs : List α) :
    ∃ ys zs, xs = ys ++ zs ∧ (∀ y ∈ ys, f y = true) ∧ ∀ z ∈ zs.head?, f z = false := by
  refine ⟨xs.takeWhile f, xs.dropWhile f, List.takeWhile_append_dropWhile.symm, List.all_eq_true.1 List.all_takeWhile, ?_⟩
  intro z hz
  have h := List.head?_dropWhile_not f xs
  rw [hz] at h
  exact h

theorem Span.eq_of_isCurly {s : Span} (h : s.isCurly = true) : ∃ o cs c, s = .level o (.inr .curly) cs c := by
  cases s with
  | leaf a t => cases h
  | cut a x => cases h
  | level o head cs c =>
    rcases head with n | b
    · cases h
    · cases b with
      | curly => exact ⟨o, cs, c, rfl⟩
      | square => cases h
      | round => cases h

theorem Span.eq_of_role_atKeyword {s : Span} (h : s.role? = some .atKeyword) : ∃ a name, s = .leaf a (.atKeyword name) := by
  cases s with
  | leaf a t =>
    cases t with
    | atKeyword name => exact ⟨a, name, rfl⟩
    | literal u => by_cases hu : u = [.char ';'] <;> simp [role?, Leaf.role, hu] at h
    | _ => simp [role?, Leaf.role] at h
  | cut a x => cases h
  | level o head cs c => cases h

/-- Spans of a node without children form one rule. -/
theorem Solo.ofComponents {us : List Span} {sel : Option (List Text)} {ended : Bool} (h : Solo us sel ended)
    {ds : List Component} (hd : ended = false → ds = []) (p : Position) :
    ∃ r, Rule.ofComponents (componentsAll p us ++ ds) = r :: Rule.ofComponents ds ∧ r.pos = p := by
  cases h with
  | style hs hq _ => exact ⟨.qualified p _ _, Rule.ofComponents_block hs hq p ds, rfl⟩
  | block hs _ => exact ⟨.atRule p _ _ _, Rule.ofComponents_atBlock hs p ds, rfl⟩
  | semicolon hs hr => exact ⟨.atRule p _ _ _, Rule.ofComponents_atSemicolon hs hr p ds, rfl⟩
  | pending hs =>
    obtain rfl := hd rfl
    rw [List.append_nil, Rule.ofComponents_atPending hs, Rule.ofComponents]
    exact ⟨_, rfl, rfl⟩

theorem read_map_eq_ok {n : Node} {x : Except SyntaxError (List Node × Text)} {ns : List Node} {tr : Text}
    (h : (x.map fun rest => (n :: rest.1, rest.2)) = .ok (ns, tr)) : ∃ ms, ns = n :: ms ∧ x = .ok (ms, tr) := by
  cases x with
  | error e => cases h
  | ok x =>
    obtain ⟨rfl, rfl⟩ := Prod.mk.inj (Except.ok.inj h)
    exact ⟨_, rfl, rfl⟩

namespace LinedText

/-- Where the first of some rules starts, or where they stop when there is none. -/
def startOf (src : LinedText) (rules : List Rule) (stop : Nat) : Nat :=
  match rules with
  | [] => stop
  | r :: _ => src.index r.pos

variable {src : LinedText} {rs : List Rule} {pending : Text} {p : Position} {stop : Nat}

theorem read_nil : src.read (Rule.ofComponents []) pending stop = .ok ([], pending) := by
  rw [Rule.ofComponents, read.eq_def]

theorem startOf_nil (src : LinedText) (stop : Nat) : src.startOf (Rule.ofComponents []) stop = stop := by
  rw [Rule.ofComponents]
  rfl

theorem read_trivia : src.read (.trivia p :: rs) pending stop =
    src.read rs (pending ++ src.slice (src.index p) (src.startOf rs stop)) stop := by
  rw [read.eq_def]
  cases rs <;> rfl

theorem read_qualified {prelude content : List Component} (h : prelude.findSome? Component.error? = none) :
    src.read (.qualified p prelude content :: rs) pending stop =
      (src.read rs [] stop).map fun rest =>
        (.block ⟨pending, some (src.slice (src.index p) (src.startOf rs stop)), writeAll prelude, writeAll content,
          selectorsOf prelude⟩ :: rest.1, rest.2) := by
  rw [read.eq_def]
  cases rs <;> simp only [h] <;> rfl

theorem read_statement {keyword : Text} {prelude : List Component} {content : Option (List Component)}
    (h : ∀ cs, content = some cs → Text.asciiLower keyword ∉ groupNames) :
    src.read (.atRule p keyword prelude content :: rs) pending stop =
      (src.read rs [] stop).map fun rest =>
        (.statement (statementOf pending (src.slice (src.index p) (src.startOf rs stop)) (Text.asciiLower keyword)
          prelude) :: rest.1, rest.2) := by
  rw [read.eq_def]
  cases content with
  | none => cases rs <;> rfl
  | some cs =>
    have h := h cs rfl
    cases rs <;> simp only [h, if_false] <;> rfl

/-- Where the content of a group stops whose text runs from `start` to `next`. -/
def contentStop (src : LinedText) (start next : Nat) : Nat :=
  if Text.endsWith (src.slice start next) ['\x7d'] then next - 1 else next

theorem endsWith_brace_iff {s : Text} :
    Text.endsWith s ['\x7d'] = true ↔ s.getLast? = some Bracket.curly.closer := by
  rw [← List.head?_reverse]
  cases h : s.reverse with
  | nil => simp [Text.endsWith, Text.startsWith, Text.after?, h]
  | cons c r =>
    by_cases hc : c = '\x7d' <;> simp [Text.endsWith, Text.startsWith, Text.after?, h, hc, Bracket.closer, eq_comm]

theorem read_group {keyword : Text} {prelude cs : List Component} (h : Text.asciiLower keyword ∈ groupNames) :
    src.read (.atRule p keyword prelude (some cs) :: rs) pending stop =
      let inner := Rule.ofComponents cs
      let last := src.contentStop (src.index p) (src.startOf rs stop)
      match src.read inner [] last with
      | .error e => .error e
      | .ok (children, trailing) => (src.read rs [] stop).map fun rest =>
        (.group ⟨pending, Text.asciiLower keyword, src.slice (src.index p) (src.startOf inner last - 1),
          Selector.normalize (writeAll prelude)⟩ children trailing :: rest.1, rest.2) := by
  rw [read.eq_def]
  cases rs with
  | nil =>
    simp only [h, if_true]
    cases Rule.ofComponents cs <;> rfl
  | cons r rs =>
    simp only [h, if_true]
    cases Rule.ofComponents cs <;> rfl

theorem outline?_statementOf (leading source name : Text) (prelude : List Component) :
    (Node.statement (statementOf leading source name prelude)).outline? = some (leading, source, none) := by
  unfold statementOf
  split <;> rfl

/-- Spans of a node without children read as that node. -/
theorem read_solo {us : List Span} {sel : Option (List Text)} {ended : Bool} (h : Solo us sel ended)
    {ds : List Component} (hd : ended = false → ds = []) :
    ∃ n : Node, n.outline? = some (pending,
        src.slice (src.index p) (src.startOf (Rule.ofComponents ds) stop), sel) ∧
      src.read (Rule.ofComponents (componentsAll p us ++ ds)) pending stop =
        (src.read (Rule.ofComponents ds) [] stop).map fun rest => (n :: rest.1, rest.2) := by
  cases h with
  | @style ss cs o c hs hq he =>
    rw [Rule.ofComponents_block hs hq, read_qualified (findSome?_error?_componentsAll .first p he)]
    exact ⟨_, by rw [Node.outline?, Option.map_some, selectorsOf_componentsAll p .first], rfl⟩
  | @block a name o ss cs c hs hn =>
    rw [Rule.ofComponents_atBlock hs, read_statement fun _ _ => hn]
    exact ⟨_, outline?_statementOf .., rfl⟩
  | @semicolon a name ss s hs hr =>
    rw [Rule.ofComponents_atSemicolon hs hr, read_statement (by simp)]
    exact ⟨_, outline?_statementOf .., rfl⟩
  | @pending a name ss hs =>
    obtain rfl := hd rfl
    have hnil : Rule.ofComponents [] = [] := by rw [Rule.ofComponents]
    rw [List.append_nil, Rule.ofComponents_atPending hs, hnil, read_statement (by simp)]
    exact ⟨_, outline?_statementOf .., rfl⟩

theorem read_refused {prelude content : List Component} {x : Position × TokenError}
    (h : prelude.findSome? Component.error? = some x) :
    src.read (.qualified p prelude content :: rs) pending stop = .error ⟨.token x.2, x.1⟩ := by
  rw [read.eq_def]
  cases rs <;> simp only [h]

theorem read_unfinished (q : Position) : src.read (.unfinished q :: rs) pending stop = .error ⟨.unfinishedRule, q⟩ := by
  rw [read.eq_def]

/-- What is read has a first rule that starts where its first span does. -/
theorem startOf_of_read {ss : List Span} (hf : ∀ s ∈ ss, s.Fine) (hs : ss ≠ []) {x : List Node × Text}
    (h : src.read (Rule.ofComponents (componentsAll p ss)) pending stop = .ok x) (j : Nat) :
    src.startOf (Rule.ofComponents (componentsAll p ss)) j = src.index p := by
  cases ss with
  | nil => exact absurd rfl hs
  | cons s ss =>
    obtain ⟨c, cs, hc, hp, h₁, h₂⟩ := Span.components_eq_cons (hf s List.mem_cons_self) p
    rw [componentsAll, hc, List.cons_append] at h ⊢
    obtain ⟨r, rs, hr, hpos⟩ := Rule.ofComponents_cons h₁ h₂ (cs ++ componentsAll (p.past s.text) ss)
    rw [hr] at h ⊢
    rcases hpos with hpos | ⟨q, rfl⟩
    · rw [startOf, hpos, hp]
    · rw [read_unfinished] at h
      cases h

theorem slice_self (i : Nat) : src.slice i i = [] := by simp [slice]

theorem startOf_trivia {s : Span} (hs : s.role? = some .trivia) (ds : List Component) (j : Nat) :
    src.startOf (Rule.ofComponents (s.components p ++ ds)) j = src.index p := by
  rw [Rule.ofComponents_trivia hs]
  rfl

/-- Trivia go before what follows them, up to where that starts. -/
theorem read_triviaCons {T t w : Text} {s : Span} {qs : List Span} (hq : ∀ u ∈ s :: qs, u.role? = some .trivia)
    (hT : seen T = t ++ textAll (s :: qs) ++ w) {ds : List Component} {j : Nat}
    (hj : (ofText T).startOf (Rule.ofComponents ds) stop = j)
    (hle : ∀ us u vs, s :: qs = us ++ u :: vs → (t ++ textAll us).length ≤ j) :
    (ofText T).read (Rule.ofComponents (componentsAll (Position.first.past t) (s :: qs) ++ ds)) pending stop =
      (ofText T).read (Rule.ofComponents ds) (pending ++ (ofText T).slice t.length j) stop := by
  have hs := hq s List.mem_cons_self
  have hi : (ofText T).index (Position.first.past t) = t.length := index_past (u := textAll (s :: qs) ++ w) (by simp [hT])
  induction qs generalizing s t pending with
  | nil =>
    simp only [componentsAll, List.append_nil]
    rw [Rule.ofComponents_trivia hs, read_trivia, hi, hj]
  | cons u qs ih =>
    have hu := hq u (List.mem_cons_of_mem s List.mem_cons_self)
    have hT' : seen T = (t ++ s.text) ++ textAll (u :: qs) ++ w := by simp [hT]
    have hi' := index_past (s := T) (t := t ++ s.text) (u := textAll (u :: qs) ++ w) (by simp [hT])
    have hlt : (t ++ s.text).length ≤ j := by simpa using hle [s] u qs rfl
    have hle' (us : List Span) (v : Span) (vs : List Span) (he : u :: qs = us ++ v :: vs) :
        (t ++ s.text ++ textAll us).length ≤ j := by simpa using hle (s :: us) v vs (by rw [he]; rfl)
    rw [componentsAll, List.append_assoc, Rule.ofComponents_trivia hs, read_trivia, hi, ← Position.past_append,
      componentsAll, List.append_assoc, startOf_trivia hu, hi', ← List.append_assoc, ← componentsAll,
      ih (fun v hv => hq v (List.mem_cons_of_mem s hv)) hT' hle' hu hi', List.append_assoc, slice_append _ (by simp) hlt]

theorem read_leading {T t w : Text} {qs : List Span} (hq : ∀ u ∈ qs, u.role? = some .trivia)
    (hT : seen T = t ++ textAll qs ++ w) {ds : List Component}
    (hj : (ofText T).startOf (Rule.ofComponents ds) stop = (t ++ textAll qs).length) :
    (ofText T).read (Rule.ofComponents (componentsAll (Position.first.past t) qs ++ ds)) [] stop =
      (ofText T).read (Rule.ofComponents ds) ((ofText T).slice t.length (t ++ textAll qs).length) stop := by
  cases qs with
  | nil => simp [componentsAll, slice_self]
  | cons s qs =>
    rw [read_triviaCons hq hT hj, List.nil_append]
    intro us u vs he
    simp [he]

/-- A node without children and the trivia before it. -/
theorem read_node {T t w : Text} {qs us : List Span} (hq : ∀ u ∈ qs, u.role? = some .trivia)
    (hT : seen T = t ++ textAll qs ++ w) {sel : Option (List Text)} {ended : Bool} (h : Solo us sel ended)
    (ds : List Component) (hd : ended = false → ds = []) (stop : Nat) :
    ∃ n : Node, n.outline? = some ((ofText T).slice t.length (t ++ textAll qs).length,
        (ofText T).slice (t ++ textAll qs).length ((ofText T).startOf (Rule.ofComponents ds) stop), sel) ∧
      (ofText T).read (Rule.ofComponents (componentsAll (Position.first.past t) (qs ++ us) ++ ds)) [] stop =
        ((ofText T).read (Rule.ofComponents ds) [] stop).map fun rest => (n :: rest.1, rest.2) := by
  have hi : (ofText T).index ((Position.first.past t).past (textAll qs)) = (t ++ textAll qs).length := by
    rw [← Position.past_append]
    exact index_past hT
  have hj : (ofText T).startOf (Rule.ofComponents (componentsAll ((Position.first.past t).past (textAll qs)) us ++ ds))
      stop = (t ++ textAll qs).length := by
    obtain ⟨r, hr, hp⟩ := h.ofComponents hd ((Position.first.past t).past (textAll qs))
    rw [hr, startOf, hp, hi]
  rw [componentsAll_append, List.append_assoc, read_leading hq hT hj, ← hi]
  exact read_solo h hd

/-- A group and the trivia before it. -/
theorem read_groupNode {T t w : Text} {qs us cs : List Span} {a name o : Text} {c : Bool}
    (hq : ∀ u ∈ qs, u.role? = some .trivia) (hu : ∀ u ∈ us, u.isPlain = true) (hn : Text.asciiLower name ∈ groupNames)
    (hT : seen T = t ++ textAll qs ++ w) (ds : List Component) :
    (ofText T).read (Rule.ofComponents (componentsAll (Position.first.past t)
        (qs ++ (.leaf a (.atKeyword name) :: us ++ [.level o (.inr .curly) cs c])) ++ ds)) [] stop =
      let inner := Rule.ofComponents (componentsAll (Position.first.past (t ++ textAll qs ++ a ++ textAll us ++ o)) cs)
      let start := (t ++ textAll qs).length
      let last := (ofText T).contentStop start ((ofText T).startOf (Rule.ofComponents ds) stop)
      match (ofText T).read inner [] last with
      | .error e => .error e
      | .ok (children, trailing) => ((ofText T).read (Rule.ofComponents ds) [] stop).map fun rest =>
        (.group ⟨(ofText T).slice t.length start, Text.asciiLower name,
          (ofText T).slice start ((ofText T).startOf inner last - 1),
          Selector.normalize (writeAll (componentsAll .first us))⟩ children trailing :: rest.1, rest.2) := by
  have hi : (ofText T).index ((Position.first.past t).past (textAll qs)) = (t ++ textAll qs).length := by
    rw [← Position.past_append]
    exact index_past hT
  have hj : (ofText T).startOf (Rule.ofComponents (componentsAll ((Position.first.past t).past (textAll qs))
      (.leaf a (.atKeyword name) :: us ++ [.level o (.inr .curly) cs c]) ++ ds)) stop = (t ++ textAll qs).length := by
    rw [Rule.ofComponents_atBlock hu]
    exact hi
  rw [componentsAll_append, List.append_assoc, read_leading hq hT hj, Rule.ofComponents_atBlock hu, read_group hn, hi,
    writeAll_componentsAll _ .first]
  simp only [Position.past_append]

/-- What spans start with: a node that is no group, a group, or something that is refused. -/
def Front (ss : List Span) : Prop :=
  (∃ us vs sel ended, ss = us ++ vs ∧ Solo us sel ended ∧ (ended = false → vs = [])) ∨
    (∃ a name us o cs c vs, ss = .leaf a (.atKeyword name) :: us ++ .level o (.inr .curly) cs c :: vs ∧
      (∀ u ∈ us, u.isPlain = true) ∧ Text.asciiLower name ∈ groupNames) ∨
    ∀ (src : LinedText) (p : Position) (pending : Text) (stop : Nat),
      ∃ e, src.read (Rule.ofComponents (componentsAll p ss)) pending stop = .error e

theorem front_atKeyword (a name : Text) (ss : List Span) : Front (.leaf a (.atKeyword name) :: ss) := by
  obtain ⟨us, vs, rfl, hu, hv⟩ := exists_splitWhile Span.isPlain ss
  cases vs with
  | nil =>
    have h : Solo (.leaf a (.atKeyword name) :: us) none false := .pending hu
    exact .inl ⟨_, [], _, _, by simp, h, fun _ => rfl⟩
  | cons v vs =>
    have hv := hv v rfl
    by_cases hc : v.isCurly = true
    · obtain ⟨o, cs, c, rfl⟩ := Span.eq_of_isCurly hc
      by_cases hn : Text.asciiLower name ∈ groupNames
      · exact .inr (.inl ⟨a, name, us, o, cs, c, vs, rfl, hu, hn⟩)
      · have h : Solo (.leaf a (.atKeyword name) :: us ++ [.level o (.inr .curly) cs c]) none true := .block hu hn
        exact .inl ⟨_, vs, _, _, by simp, h, by simp⟩
    · have hr : v.role? = some .semicolon := by
        by_contra hr
        exact absurd (Span.isPlain_iff.2 ⟨by simpa using hc, hr⟩) (by simp [hv])
      have h : Solo (.leaf a (.atKeyword name) :: us ++ [v]) none true := .semicolon hu hr
      exact .inl ⟨_, vs, _, _, by simp, h, by simp⟩

theorem front_qualified {s : Span} {ss : List Span} (hq : Rule.StartsQualified s) : Front (s :: ss) := by
  obtain ⟨us, vs, he, hu, hv⟩ := exists_splitWhile (fun u : Span => !u.isCurly) (s :: ss)
  have hu : ∀ u ∈ us, u.isCurly = false := fun u h => by simpa using hu u h
  cases vs with
  | nil =>
    rw [List.append_nil] at he
    refine .inr (.inr fun src p pending stop => ?_)
    obtain ⟨q, h⟩ := Rule.ofComponents_unfinished hq (he ▸ hu) p
    exact ⟨_, by rw [h, read_unfinished]⟩
  | cons v vs =>
    obtain ⟨o, cs, c, rfl⟩ := Span.eq_of_isCurly (s := v) (by simpa using hv v rfl)
    have hh : ∀ u ∈ (us ++ [Span.level o (.inr .curly) cs c]).head?, Rule.StartsQualified u := by
      intro u hm
      cases us with
      | nil =>
        obtain rfl := Option.some.inj hm
        rwa [← (List.cons.inj he).1]
      | cons w us =>
        obtain rfl := Option.some.inj hm
        rwa [← (List.cons.inj he).1]
    have he' : s :: ss = (us ++ [.level o (.inr .curly) cs c]) ++ vs := by simp [he]
    by_cases hp : (componentsAll .first us).findSome? Component.error? = none
    · exact .inl ⟨_, vs, _, _, he', .style hu hh hp, by simp⟩
    · refine .inr (.inr fun src p pending stop => ?_)
      obtain ⟨x, hx⟩ := Option.ne_none_iff_exists'.1 (mt (findSome?_error?_componentsAll p .first) hp)
      exact ⟨_, by rw [he', componentsAll_append, Rule.ofComponents_block hu hh, read_refused hx]⟩

theorem front_cases {s : Span} {ss : List Span} (hf : ∀ u ∈ s :: ss, u.Fine) (hs : s.role? ≠ some .trivia) :
    Front (s :: ss) := by
  by_cases ha : s.role? = some .atKeyword
  · obtain ⟨a, name, rfl⟩ := Span.eq_of_role_atKeyword ha
    exact front_atKeyword a name ss
  · exact front_qualified ⟨hf s List.mem_cons_self, hs, ha⟩

end LinedText

end StylePrune.Css
