import StylePrune.Proofs.Css.Rereading

/-!
What a sheet is read as reads back.
-/

set_option autoImplicit false

namespace StylePrune.Css

theorem Token.opener_text {a v : Text} {b : Bracket} (h : Token a v [.opening b]) : a = [b.opener] := by
  obtain ⟨c, a', rfl, hr⟩ := h.exists_cons
  have ho := outcome_readToken c (a' ++ v)
  rw [hr] at ho
  generalize hs : a' ++ v = s at ho
  cases ho with
  | opening _ hc =>
    obtain rfl : a' = [] := List.append_cancel_right (hs : a' ++ v = [] ++ v)
    rw [hc]

theorem eq_literal_of_role {t : Leaf} (h : t.role = .semicolon) : t = .literal [.char ';'] := by
  cases t with
  | literal u =>
    by_cases hu : u = [.char ';']
    · rw [hu]
    · simp [Leaf.role, hu] at h
  | _ => cases h

/-- A semicolon is a token before whatever follows. -/
theorem Token.semicolon {a v : Text} {t : Leaf} (h : Token a v [.leaf t]) (ht : t.role = .semicolon) :
    a = [.char ';'] ∧ ∀ w, Token a w [.leaf t] := by
  obtain ⟨c, a', rfl, hr⟩ := h.exists_cons
  have ho := outcome_readToken c (a' ++ v)
  rw [hr] at ho
  generalize hs : a' ++ v = s at ho hr
  cases ho with
  | leaf _ _ hc =>
    obtain ⟨rfl, hv⟩ := List.cons.inj (hc _ (eq_literal_of_role ht))
    obtain rfl : a' = [] := List.append_cancel_right (hs.trans hv)
    refine ⟨rfl, fun w => ⟨⟨';', w, rfl, ?_⟩, h.clean, h.fine⟩⟩
    rw [readToken_semicolon] at hr ⊢
    rw [(Prod.mk.inj hr).1]

section

variable {k : Option Bracket} {us vs zs : List Span} {r : Text}

/-- Spans before a brace read the same whatever follows behind the brace. -/
theorem Reads.leads {v : Text} (h : Reads k (us ++ vs) r) (hv : textAll vs ++ r = Bracket.curly.opener :: v) : Leads k us :=
  fun zs r' w hw hz => h.swap (b := []) (v := Bracket.curly.opener :: v) (w := Bracket.curly.opener :: w) hv (by simp)
    (stops_cons (.inl rfl) v) (stops_cons (.inl rfl) w) hz hw

/-- A closed block in braces stands. -/
theorem Reads.stands_block {o : Text} {cs : List Span} (h : Reads k (us ++ .level o (.inr .curly) cs true :: vs) r) :
    Stands k (us ++ [.level o (.inr .curly) cs true]) := by
  intro zs r' hz
  have hl := h.of_append
  cases hl with
  | closed ht hc _ =>
    obtain rfl := ht.opener_text
    rw [List.append_assoc]
    refine h.leads (by simp [Span.text]; rfl) _ _ _ (by simp [Span.text]; rfl) ?_
    exact .closed (Token.opener .curly _) (hc.swap_rest (.inr (.inl rfl))) hz

theorem Reads.stands_semicolon {s : Span} (h : Reads k (us ++ s :: vs) r) (hs : s.role? = some .semicolon) :
    Stands k (us ++ [s]) := by
  intro zs r' hz
  have hl := h.of_append
  cases hl with
  | @leaf _ a t _ _ ht _ =>
    obtain ⟨rfl, ht⟩ := ht.semicolon (Option.some.inj hs)
    rw [List.append_assoc]
    exact h.swap (b := []) (by simp [Span.text]; rfl) (by simp) (stops_cons (.inr (.inr rfl)) _)
      (stops_cons (.inr (.inr rfl)) _) (.leaf (ht _) hz) (by simp [Span.text]; rfl)
  | stray _ _ => cases hs
  | cut _ => cases hs
  | closed _ _ _ => cases hs
  | unclosed _ _ => cases hs

end

/-- A node that something follows stands. -/
theorem Solo.stands {k : Option Bracket} {qs us vs : List Span} {r : Text} {sel : Option (List Text)}
    (h : Solo us sel true) (hr : Reads k (qs ++ us ++ vs) r) (hv : vs ≠ []) : Stands k (qs ++ us) := by
  have block {ws cs : List Span} {o : Text} {c : Bool} (hr : Reads k (ws ++ .level o (.inr .curly) cs c :: vs) r) :
      Stands k (ws ++ [.level o (.inr .curly) cs c]) := by
    cases c with
    | true => exact hr.stands_block
    | false =>
      have hl := hr.of_append
      cases hl
      exact absurd rfl hv
  cases h with
  | @style ss cs o c _ _ _ =>
    rw [← List.append_assoc]
    exact block (by simpa using hr)
  | @block a name o ss cs c _ _ =>
    rw [← List.append_assoc]
    exact block (by simpa using hr)
  | @semicolon a name ss s _ hs =>
    rw [← List.append_assoc]
    have hr' : Reads k (qs ++ .leaf a (.atKeyword name) :: ss ++ s :: vs) r := by simpa using hr
    exact hr'.stands_semicolon hs

theorem exists_concat {α : Type} {xs : List α} (h : xs ≠ []) : ∃ ys y, xs = ys ++ [y] :=
  ⟨xs.dropLast, xs.getLast h, (List.dropLast_concat_getLast h).symm⟩

theorem concat_inj {α : Type} {xs ys : List α} {x y : α} (h : xs ++ [x] = ys ++ [y]) : xs = ys ∧ x = y := by
  obtain ⟨h₁, h₂⟩ := List.append_inj' h rfl
  exact ⟨h₁, List.head_eq_of_cons_eq h₂⟩

/-- Another last span of the same kind leaves what comes before. -/
theorem KinLast.of_append {qs us zs : List Span} (h : KinLast (qs ++ us) zs) (hu : us ≠ []) :
    ∃ ws, zs = qs ++ ws ∧ KinLast us ws := by
  obtain ⟨init, x, y, he, rfl, hk⟩ := h
  obtain ⟨us, u, rfl⟩ := exists_concat hu
  rw [← List.append_assoc] at he
  obtain ⟨rfl, rfl⟩ := concat_inj he
  exact ⟨us ++ [y], by simp, us, u, y, rfl, rfl, hk⟩

theorem Span.Kin.role {x y : Span} {r : Role} (h : x.Kin y) (hx : x.role? = some r) : y.role? = some r := by
  cases h with
  | leaf hx' hy => rw [hy, ← hx', hx]
  | level => cases hx

theorem Span.Kin.isPlain {x y : Span} (h : x.Kin y) (hx : x.isPlain = true) : y.isPlain = true := by
  cases h with
  | leaf hx' hy =>
    obtain ⟨-, hr⟩ := isPlain_iff.1 hx
    refine isPlain_iff.2 ⟨?_, by rwa [hy, ← hx']⟩
    cases y with
    | leaf a t => rfl
    | cut a x => rfl
    | level o head cs c => cases hy
  | @level o head cs ds c d =>
    rcases head with n | b
    · rfl
    · cases b with
      | curly => cases hx
      | square => rfl
      | round => rfl

theorem Span.Kin.block {o : Text} {cs : List Span} {c : Bool} {y : Span} (h : (Span.level o (.inr .curly) cs c).Kin y) :
    ∃ ds d, y = .level o (.inr .curly) ds d := by
  cases h with
  | leaf hx _ => cases hx
  | level => exact ⟨_, _, rfl⟩

theorem KinLast.trivia {qs zs : List Span} (h : KinLast qs zs) (hq : ∀ s ∈ qs, s.role? = some .trivia) :
    ∀ s ∈ zs, s.role? = some .trivia := by
  obtain ⟨init, x, y, rfl, rfl, hk⟩ := h
  intro s hs
  rcases List.mem_append.1 hs with hs | hs
  · exact hq s (List.mem_append_left _ hs)
  · obtain rfl := List.mem_singleton.1 hs
    exact hk.role (hq x (by simp))

theorem Solo.kinLast {us zs : List Span} {sel : Option (List Text)} {ended : Bool} (h : Solo us sel ended)
    (hk : KinLast us zs) : Solo zs sel ended := by
  obtain ⟨init, x, y, hu, rfl, hk⟩ := hk
  cases h with
  | @style ss cs o c hs hq he =>
    obtain ⟨rfl, rfl⟩ := concat_inj hu
    obtain ⟨ds, d, rfl⟩ := hk.block
    refine .style hs (fun s hm => ?_) he
    cases ss with
    | nil =>
      obtain rfl := Option.some.inj hm
      exact ⟨trivial, nofun, nofun⟩
    | cons u ss => exact hq s hm
  | block hs hn =>
    obtain ⟨rfl, rfl⟩ := concat_inj hu
    obtain ⟨ds, d, rfl⟩ := hk.block
    exact .block hs hn
  | semicolon hs hr =>
    obtain ⟨rfl, rfl⟩ := concat_inj hu
    exact .semicolon hs (hk.role hr)
  | @pending a name ss hs =>
    by_cases hn : ss = []
    · subst hn
      rw [← List.nil_append [_]] at hu
      obtain ⟨rfl, rfl⟩ := concat_inj hu
      obtain ⟨b, name, rfl⟩ := Span.eq_of_role_atKeyword (hk.role rfl)
      exact .pending hs
    · obtain ⟨ss, s, rfl⟩ := exists_concat hn
      rw [← List.cons_append] at hu
      obtain ⟨rfl, rfl⟩ := concat_inj hu
      refine .pending fun u hm => ?_
      rcases List.mem_append.1 hm with hm | hm
      · exact hs u (List.mem_append_left _ hm)
      · obtain rfl := List.mem_singleton.1 hm
        exact hk.isPlain (hs s (by simp))

theorem getLast?_append_braces_succ (s : Text) (n : Nat) :
    (s ++ braces (n + 1)).getLast? = some Bracket.curly.closer := by
  rw [braces_add, ← List.append_assoc]
  exact List.getLast?_concat

/-- Braces at the end of a text are among the last ones. -/
theorem eq_append_braces {s v : Text} {b m : Nat} (h : s ++ braces b = v ++ braces m)
    (hv : v.getLast? ≠ some Bracket.curly.closer) : b ≤ m ∧ s = v ++ braces (m - b) := by
  have cancel {s t : Text} {n : Nat} (h : s ++ braces n = t ++ braces n) : s = t := List.append_cancel_right h
  rcases Nat.lt_or_ge m b with hlt | hle
  · obtain ⟨n, rfl⟩ := Nat.exists_eq_add_of_lt hlt
    have hb : s ++ braces (n + 1) = v := by
      refine cancel (n := m) ?_
      rw [← h, List.append_assoc, ← braces_add]
      congr 2
      omega
    rw [← hb, getLast?_append_braces_succ] at hv
    exact absurd rfl hv
  · refine ⟨hle, cancel (n := b) ?_⟩
    rw [h, List.append_assoc, ← braces_add, Nat.sub_add_cancel hle]

namespace Ending

/-- Nodes end where `j` is, when their text ends with `s` and the rest `r` follows. Each open group takes one of the
braces at the end of the text, as long as there are any. -/
def Bounds : Ending → Text → Text → Nat → Prop
  | closed, s, r, j => (∃ r', r = Bracket.curly.closer :: r') ∧ j = s.length
  | .open d, s, r, j => ∃ b v m, r = braces b ∧ b ≤ d ∧ s ++ braces b = v ++ braces m ∧
      v.getLast? ≠ some Bracket.curly.closer ∧ j = v.length + (m - d)

variable {e : Ending} {s t r T : Text} {ss : List Span} {j : Nat}

theorem Bounds.eq_length (h : e.Bounds s r j) (hs : s.getLast? ≠ some Bracket.curly.closer) : j = s.length := by
  cases e with
  | closed => exact h.2
  | «open» d =>
    obtain ⟨b, v, m, -, hb, he, hv, rfl⟩ := h
    obtain ⟨hle, rfl⟩ := eq_append_braces he hv
    have hm : m - b = 0 := by
      cases hm : m - b with
      | zero => rfl
      | succ n => exact absurd (by rw [hm, getLast?_append_braces_succ]) hs
    simp only [List.length_append, length_braces]
    omega

/-- Inside braces, spans start before the braces at the end of the text. -/
theorem exists_front {v : Text} {b m : Nat} (he : t ++ textAll ss ++ braces b = v ++ braces m)
    (hr : Reads (some .curly) ss (braces b)) (hs : ss ≠ []) :
    ∃ x, v = t ++ x ∧ textAll ss ++ braces b = x ++ braces m := by
  rw [List.append_assoc] at he
  have hlt : t.length < v.length := by
    cases ss with
    | nil => exact absurd rfl hs
    | cons u ss =>
      have hu := hr.text_ne_nil
      refine length_lt_of_append_braces he.symm (by simp [hu]) ?_
      rw [textAll_cons, List.append_assoc, List.head?_append_of_ne_nil _ hu]
      exact hr.head_ne (.inl rfl)
  rcases List.append_eq_append_iff.1 he with ⟨x, hx, hy⟩ | ⟨x, rfl, -⟩
  · exact ⟨x, hx, hy⟩
  · simp only [List.length_append] at hlt
    omega

theorem Bounds.le (h : e.Bounds (t ++ textAll ss) r j) (hr : Reads e.level ss r) (hs : ss ≠ []) : t.length ≤ j := by
  cases e with
  | closed =>
    rw [h.2, List.length_append]
    exact Nat.le_add_right _ _
  | «open» d =>
    obtain ⟨b, v, m, rfl, hb, he, hv, rfl⟩ := h
    cases d with
    | zero =>
      have hl := congrArg List.length he
      simp only [List.length_append, length_braces] at hl
      omega
    | succ d =>
      obtain ⟨x, rfl, -⟩ := exists_front he hr hs
      simp only [List.length_append]
      omega

theorem seen_slice_eq {x w : Text} (hT : seen T = t ++ x ++ w) :
    seen ((LinedText.ofText T).slice t.length (t ++ x).length) = x := by
  rw [LinedText.seen_slice, hT]
  simp

/-- The text up to the end of some nodes reads as their spans, or as spans that differ in the last. -/
theorem Bounds.covers (h : e.Bounds (t ++ textAll ss) r j) (hr : Reads e.level ss r) (hs : ss ≠ [])
    (hT : seen T = t ++ textAll ss ++ r) :
    ∃ us, e.Covers (seen ((LinedText.ofText T).slice t.length j)) us ∧ (us = ss ∨ KinLast ss us) := by
  cases e with
  | closed =>
    obtain ⟨⟨r, rfl⟩, rfl⟩ := h
    exact ⟨ss, ⟨(seen_slice_eq hT).symm, fun w => hr.swap_rest (.inr (.inl rfl))⟩, .inl rfl⟩
  | «open» d =>
    obtain ⟨b, v, m, rfl, hb, he, hv, rfl⟩ := h
    cases d with
    | zero =>
      obtain rfl := Nat.le_zero.1 hb
      have hj : v.length + (m - 0) = (t ++ textAll ss).length := by
        have hl := congrArg List.length he
        simpa only [List.length_append, length_braces, Nat.sub_zero, Nat.add_zero] using hl.symm
      exact ⟨ss, ⟨0, Nat.le_refl 0, by rw [hj, seen_slice_eq hT], hr⟩, .inl rfl⟩
    | succ d =>
      obtain ⟨x, rfl, hx⟩ := exists_front he hr hs
      obtain ⟨hbm, -⟩ := eq_append_braces hx fun hx' => hv (by
        rw [List.getLast?_append, hx']
        rfl)
      have hj : (t ++ x).length + (m - (d + 1)) = (t ++ (x ++ braces (m - (d + 1)))).length := by
        simp only [List.length_append, length_braces]
        omega
      have hT' : seen T = t ++ (x ++ braces (m - (d + 1))) ++ braces (min m (d + 1)) := by
        rw [hT, List.append_assoc, hx, List.append_assoc, List.append_assoc, ← braces_add]
        congr 3
        omega
      -- the braces that the text does not have for all open groups
      obtain ⟨us, n, hn, hu, hru, hk⟩ := hr.takesBraces (d + 1 - m)
      refine ⟨us, ⟨n, by omega, ?_, hru⟩, hk⟩
      rw [hu, braces_add, ← List.append_assoc, hx, hj, seen_slice_eq hT', List.append_assoc, List.append_assoc,
        ← braces_add, ← braces_add]
      congr 2
      omega

end Ending

/-- Whatever nodes spans are read as, the nodes read back. -/
def ReadsBack (ss : List Span) : Prop :=
  ∀ (e : Ending) (T t r tr : Text) (ns : List Node) (j : Nat), Reads e.level ss r → seen T = t ++ textAll ss ++ r →
    e.Bounds (t ++ textAll ss) r j →
    (LinedText.ofText T).read (Rule.ofComponents (componentsAll (Position.first.past t) ss)) [] j = .ok (ns, tr) →
    Faithful e ns tr

theorem readsBack_nil : ReadsBack [] := fun e T t r tr ns j _ _ _ h => by
  rw [componentsAll, LinedText.read_nil] at h
  obtain ⟨rfl, rfl⟩ := Prod.mk.inj (Except.ok.inj h)
  exact .nil e

theorem readsBack_trivia {qs : List Span} (hq : ∀ s ∈ qs, s.role? = some .trivia) : ReadsBack qs := by
  cases qs with
  | nil => exact readsBack_nil
  | cons s qs =>
    intro e T t r tr ns j hr hT hb h
    have hle (us : List Span) (u : Span) (vs : List Span) (he : s :: qs = us ++ u :: vs) :
        (t ++ textAll us).length ≤ j := by
      rw [he] at hr hb
      have hb' : e.Bounds (t ++ textAll us ++ textAll (u :: vs)) r j := by simpa using hb
      exact hb'.le hr.of_append (by simp)
    rw [← List.append_nil (componentsAll _ _), LinedText.read_triviaCons hq hT (LinedText.startOf_nil _ _) hle,
      LinedText.read_nil, List.nil_append] at h
    obtain ⟨rfl, rfl⟩ := Prod.mk.inj (Except.ok.inj h)
    obtain ⟨us, hc, hk⟩ := hb.covers hr (by simp) hT
    rcases hk with rfl | hk
    · exact .trail hq hc
    · exact .trail (hk.trivia hq) hc

theorem readsBack_last {qs us : List Span} {sel : Option (List Text)} {ended : Bool}
    (hq : ∀ s ∈ qs, s.role? = some .trivia) (hs : Solo us sel ended) (hu : us ≠ []) : ReadsBack (qs ++ us) := by
  intro e T t r tr ns j hr hT hb h
  have hT' : seen T = t ++ textAll qs ++ (textAll us ++ r) := by simp [hT]
  obtain ⟨n, ho, hread⟩ := LinedText.read_node hq hT' hs [] (fun _ => rfl) j
  rw [LinedText.startOf_nil] at ho
  rw [List.append_nil, LinedText.read_nil] at hread
  rw [hread] at h
  obtain ⟨rfl, rfl⟩ := Prod.mk.inj (Except.ok.inj h)
  have hb' : e.Bounds (t ++ textAll qs ++ textAll us) r j := by simpa using hb
  have hle : (t ++ textAll qs).length ≤ j := hb'.le hr.of_append hu
  obtain ⟨zs, hc, hk⟩ := hb.covers hr (by simp [hu]) hT
  rw [← LinedText.slice_append _ (by simp) hle] at hc
  have hl : textAll qs = seen ((LinedText.ofText T).slice t.length (t ++ textAll qs).length) :=
    (Ending.seen_slice_eq hT').symm
  rcases hk with rfl | hk
  · exact .last ho hq hl hs hc
  · obtain ⟨ws, rfl, hkl⟩ := hk.of_append hu
    exact .last ho hq hl (hs.kinLast hkl) hc

theorem Solo.ne_nil {us : List Span} {sel : Option (List Text)} {ended : Bool} (h : Solo us sel ended) : us ≠ [] := by
  cases h <;> simp

theorem readsBack_cons {qs us vs : List Span} {sel : Option (List Text)} (hq : ∀ s ∈ qs, s.role? = some .trivia)
    (hs : Solo us sel true) (hv : vs ≠ []) (ih : ReadsBack vs) : ReadsBack (qs ++ us ++ vs) := by
  intro e T t r tr ns j hr hT hb h
  have hT₁ : seen T = t ++ textAll qs ++ (textAll us ++ textAll vs ++ r) := by simp [hT]
  have hT₂ : seen T = t ++ textAll qs ++ textAll us ++ (textAll vs ++ r) := by simp [hT]
  have hT₃ : seen T = t ++ textAll (qs ++ us) ++ textAll vs ++ r := by simp [hT]
  rw [componentsAll_append, ← Position.past_append] at h
  obtain ⟨n, ho, hread⟩ := LinedText.read_node hq hT₁ hs
    (componentsAll (Position.first.past (t ++ textAll (qs ++ us))) vs) (by simp) j
  rw [hread] at h
  obtain ⟨ms, rfl, hm⟩ := read_map_eq_ok h
  have hj := LinedText.startOf_of_read hr.of_append.fine hv hm j
  rw [LinedText.index_past (u := textAll vs ++ r) (by simp [hT])] at hj
  rw [hj, textAll_append, ← List.append_assoc] at ho
  refine .cons ho hq (Ending.seen_slice_eq hT₁).symm (Ending.seen_slice_eq hT₂).symm hs (hs.stands hr hv) ?_
  exact ih e T _ r tr ms j hr.of_append hT₃ (by simpa using hb) hm

theorem getLast?_seen {s : Text} :
    (seen s).getLast? = some Bracket.curly.closer ↔ s.getLast? = some Bracket.curly.closer := by
  rw [seen, List.getLast?_map]
  cases s.getLast? with
  | none => simp
  | some c => by_cases hc : c = '\x00' <;> simp [hc, Bracket.closer]

/-- Where the content of a group starts, or ends when there is none. -/
theorem startOf_content {e : Ending} {T t r : Text} {cs : List Span} {j : Nat} (hr : Reads e.level cs r)
    (hT : seen T = t ++ textAll cs ++ r) (hb : e.Bounds (t ++ textAll cs) r j)
    (ht : t.getLast? ≠ some Bracket.curly.closer) {x : List Node × Text}
    (h : (LinedText.ofText T).read (Rule.ofComponents (componentsAll (Position.first.past t) cs)) [] j = .ok x) :
    (LinedText.ofText T).startOf (Rule.ofComponents (componentsAll (Position.first.past t) cs)) j = t.length := by
  by_cases hc : cs = []
  · subst hc
    rw [textAll_nil, List.append_nil] at hb
    rw [componentsAll, LinedText.startOf_nil, hb.eq_length ht]
  · rw [LinedText.startOf_of_read hr.fine hc h, LinedText.index_past (u := textAll cs ++ r) (by simp [hT])]

/-- Spans of a group. -/
structure GroupSpans (qs : List Span) (a name : Text) (us : List Span) : Prop where
  trivia : ∀ s ∈ qs, s.role? = some .trivia
  plain : ∀ s ∈ us, s.isPlain = true
  name_mem : Text.asciiLower name ∈ groupNames

/-- A block in braces goes up to its brace or to the end of the text. -/
theorem Reads.block {k : Option Bracket} {o : Text} {cs vs : List Span} {c : Bool} {r : Text}
    (h : Reads k (.level o (.inr .curly) cs c :: vs) r) :
    o = [Bracket.curly.opener] ∧
      (c = true ∧ Reads (some .curly) cs (Bracket.curly.closer :: (textAll vs ++ r)) ∨
        c = false ∧ vs = [] ∧ r = [] ∧ Reads (some .curly) cs []) := by
  cases h with
  | closed ht hc _ => exact ⟨ht.opener_text, .inl ⟨rfl, hc⟩⟩
  | unclosed ht hc => exact ⟨ht.opener_text, .inr ⟨rfl, rfl, rfl, hc⟩⟩

section

variable {T t x w : Text}

theorem contentStop_of_closer (hT : seen T = t ++ x ++ w) (hx : x.getLast? = some Bracket.curly.closer) :
    (LinedText.ofText T).contentStop t.length (t ++ x).length = (t ++ x).length - 1 := by
  rw [LinedText.contentStop, if_pos (LinedText.endsWith_brace_iff.2 ?_)]
  rw [← getLast?_seen, Ending.seen_slice_eq hT, hx]

theorem contentStop_of_ne_closer (hT : seen T = t ++ x ++ w) (hx : x.getLast? ≠ some Bracket.curly.closer) :
    (LinedText.ofText T).contentStop t.length (t ++ x).length = (t ++ x).length := by
  rw [LinedText.contentStop, if_neg (mt LinedText.endsWith_brace_iff.1 ?_)]
  rwa [← getLast?_seen, Ending.seen_slice_eq hT]

end

section Groups

variable {qs us cs vs : List Span} {a name : Text} {c : Bool} {e : Ending} {T t r tr : Text} {ns : List Node} {j : Nat}

/-- A group reads as its content does, which ends with the brace of the group where it has one. -/
theorem read_group (hg : GroupSpans qs a name us) {k : Option Bracket} {r' : Text} {i : Nat}
    (hr : Reads k (qs ++ groupSpans a name us cs c ++ vs) r)
    (hT : seen T = t ++ textAll qs ++ a ++ textAll us ++ [Bracket.curly.opener] ++ textAll cs ++ r')
    (hi : ∀ x, (LinedText.ofText T).read (Rule.ofComponents
        (componentsAll (Position.first.past (t ++ textAll (qs ++ groupSpans a name us cs c))) vs)) [] j = .ok x →
      (LinedText.ofText T).contentStop (t ++ textAll qs).length ((LinedText.ofText T).startOf (Rule.ofComponents
        (componentsAll (Position.first.past (t ++ textAll (qs ++ groupSpans a name us cs c))) vs)) j) = i)
    (hrc : Reads e.level cs r')
    (hb : e.Bounds (t ++ textAll qs ++ a ++ textAll us ++ [Bracket.curly.opener] ++ textAll cs) r' i)
    (ih : ReadsBack cs)
    (h : (LinedText.ofText T).read (Rule.ofComponents
      (componentsAll (Position.first.past t) (qs ++ groupSpans a name us cs c ++ vs))) [] j = .ok (ns, tr)) :
    ∃ g children trailing ms, ns = .group g children trailing :: ms ∧ g.Opens k ∧ Faithful e children trailing ∧
      (LinedText.ofText T).read (Rule.ofComponents
        (componentsAll (Position.first.past (t ++ textAll (qs ++ groupSpans a name us cs c))) vs)) [] j =
          .ok (ms, tr) := by
  have hT₁ : seen T = t ++ textAll qs ++ (a ++ textAll us ++ [Bracket.curly.opener] ++ textAll cs ++ r') := by
    simp [hT]
  have hT₂ : seen T = t ++ textAll qs ++ (a ++ textAll us) ++ ([Bracket.curly.opener] ++ textAll cs ++ r') := by
    simp [hT]
  rw [componentsAll_append, ← Position.past_append] at h
  rw [LinedText.read_groupNode hg.trivia hg.plain hg.name_mem hT₁] at h
  simp only [] at h
  split at h
  · cases h
  · rename_i children trailing hin
    obtain ⟨ms, rfl, hm⟩ := read_map_eq_ok h
    rw [hi _ hm] at hin ⊢
    refine ⟨_, children, trailing, ms, rfl, ?_, ih _ _ _ _ _ _ _ hrc hT hb hin, hm⟩
    have hstart := startOf_content hrc hT hb (by simp [Bracket.opener, Bracket.closer]) hin
    have hlen : (t ++ textAll qs ++ a ++ textAll us ++ [Bracket.curly.opener]).length - 1 =
        (t ++ textAll qs ++ (a ++ textAll us)).length := by
      simp only [List.length_append, List.length_singleton]
      omega
    rw [hstart, hlen]
    refine ⟨qs, us, a, name, hg.trivia, (Ending.seen_slice_eq hT₁).symm, hg.plain, (Ending.seen_slice_eq hT₂).symm,
      rfl, hg.name_mem, rfl, ?_⟩
    have hr' : Reads k (qs ++ .leaf a (.atKeyword name) :: us ++
        .level [Bracket.curly.opener] (.inr .curly) cs c :: vs) r := by simpa using hr
    exact hr'.leads (v := textAll cs ++ ((if c then [Bracket.curly.closer] else []) ++ (textAll vs ++ r)))
      (by simp [Span.text, closerOf])

/-- What ends with braces ends one brace earlier inside a group, as long as there are any. -/
theorem contentStop_braces {x : Text} {d m : Nat} (hT : seen T = t ++ x ++ braces m)
    (hx : x.getLast? ≠ some Bracket.curly.closer) :
    (LinedText.ofText T).contentStop t.length ((t ++ x).length + (m - d)) = (t ++ x).length + (m - (d + 1)) := by
  rcases Nat.lt_or_ge d m with hlt | hle
  · obtain ⟨n, rfl⟩ := Nat.exists_eq_add_of_lt hlt
    have hT' : seen T = t ++ (x ++ braces (n + 1)) ++ braces d := by
      rw [hT, List.append_assoc, List.append_assoc, List.append_assoc, ← braces_add]
      congr 3
      omega
    have hn : (t ++ x).length + (d + n + 1 - d) = (t ++ (x ++ braces (n + 1))).length := by
      simp only [List.length_append, length_braces]
      omega
    rw [hn, contentStop_of_closer hT' (getLast?_append_braces_succ x n), ← hn]
    omega
  · rw [Nat.sub_eq_zero_of_le hle, Nat.sub_eq_zero_of_le (Nat.le_succ_of_le hle)]
    exact contentStop_of_ne_closer hT hx

/-- A group that the end of the text closes. -/
theorem readsBack_lastGroup (hg : GroupSpans qs a name us) (ih : ReadsBack cs) {d : Nat}
    (hr : Reads (Ending.open d).level (qs ++ groupSpans a name us cs c ++ []) r)
    (hT : seen T = t ++ textAll (qs ++ groupSpans a name us cs c ++ []) ++ r)
    (hb : (Ending.open d).Bounds (t ++ textAll (qs ++ groupSpans a name us cs c ++ [])) r j)
    (h : (LinedText.ofText T).read (Rule.ofComponents
      (componentsAll (Position.first.past t) (qs ++ groupSpans a name us cs c ++ []))) [] j = .ok (ns, tr)) :
    Faithful (.open d) ns tr := by
  obtain ⟨b, v, m, rfl, hbd, he, hv, rfl⟩ := hb
  have ha : Reads (Ending.open d).level (groupSpans a name us cs c) (braces b) := by
    rw [List.append_nil] at hr
    exact hr.of_append
  obtain ⟨b', hb', hrb, hrc⟩ : ∃ b', b' ≤ d + 1 ∧
      (if c then [Bracket.curly.closer] else []) ++ braces b = braces b' ∧ Reads (some .curly) cs (braces b') := by
    rcases ha.of_append.block.2 with ⟨rfl, hrc⟩ | ⟨rfl, -, hn, hrc⟩
    · exact ⟨b + 1, by omega, rfl, hrc⟩
    · exact ⟨0, by omega, hn, hrc⟩
  have hC : t ++ textAll (qs ++ groupSpans a name us cs c ++ []) ++ braces b =
      t ++ textAll qs ++ (a ++ textAll us ++ [Bracket.curly.opener] ++ textAll cs ++ braces b') := by
    rw [← hrb, List.append_nil, textAll_append, textAll_groupSpans]
    simp
  -- the braces at the end of the text are behind the start of the group
  have hlt : (t ++ textAll qs).length < v.length := by
    have hn : a ≠ [] := ha.text_ne_nil
    refine length_lt_of_append_braces (he.symm.trans hC) (by simp [hn]) ?_
    simp only [List.append_assoc]
    rw [List.head?_append_of_ne_nil _ hn]
    exact ha.head_ne (.inr (by simp [Span.role?, Leaf.role]))
  obtain ⟨x, rfl⟩ : ∃ x, v = t ++ textAll qs ++ x := by
    rcases List.append_eq_append_iff.1 (he.symm.trans hC) with ⟨x, hx, -⟩ | ⟨x, hx, -⟩
    · rw [hx, List.length_append] at hlt
      omega
    · exact ⟨x, hx⟩
  have hx : x.getLast? ≠ some Bracket.curly.closer := fun hx => hv (by
    rw [List.getLast?_append, hx]
    rfl)
  have hb : (Ending.open (d + 1)).Bounds (t ++ textAll qs ++ a ++ textAll us ++ [Bracket.curly.opener] ++ textAll cs)
      (braces b') ((t ++ textAll qs ++ x).length + (m - (d + 1))) :=
    ⟨b', _, m, rfl, hb', by rw [← he, hC]; simp, hv, rfl⟩
  have hT₁ : seen T = t ++ textAll qs ++ a ++ textAll us ++ [Bracket.curly.opener] ++ textAll cs ++ braces b' := by
    rw [hT, hC]
    simp
  obtain ⟨g, children, trailing, ms, rfl, ho, hf, hm⟩ := read_group (e := .open (d + 1)) hg hr hT₁
    (fun y _ => by rw [componentsAll, LinedText.startOf_nil, contentStop_braces (hT.trans he) hx]) hrc hb ih h
  rw [componentsAll, LinedText.read_nil] at hm
  obtain ⟨rfl, rfl⟩ := Prod.mk.inj (Except.ok.inj hm)
  exact .lastGroup ho hf

/-- A group with its own brace ends where the next rule starts. -/
theorem startOf_behind {k : Option Bracket} (hr : Reads k (qs ++ groupSpans a name us cs c ++ vs) r)
    (hT : seen T = t ++ textAll (qs ++ groupSpans a name us cs c ++ vs) ++ r)
    (hj : vs = [] → j = (t ++ textAll (qs ++ groupSpans a name us cs c)).length) {x : List Node × Text}
    (hx : (LinedText.ofText T).read (Rule.ofComponents
      (componentsAll (Position.first.past (t ++ textAll (qs ++ groupSpans a name us cs c))) vs)) [] j = .ok x) :
    (LinedText.ofText T).startOf (Rule.ofComponents
      (componentsAll (Position.first.past (t ++ textAll (qs ++ groupSpans a name us cs c))) vs)) j =
        (t ++ textAll (qs ++ groupSpans a name us cs c)).length := by
  by_cases hvs : vs = []
  · subst hvs
    rw [componentsAll, LinedText.startOf_nil, hj rfl]
  · rw [LinedText.startOf_of_read hr.of_append.fine hvs hx,
      LinedText.index_past (u := textAll vs ++ r) (by rw [hT, textAll_append _ vs]; simp only [List.append_assoc])]

/-- A group with its own brace, and what follows it. -/
theorem readsBack_closedGroup (hg : GroupSpans qs a name us) (ihc : ReadsBack cs) (ihv : ReadsBack vs)
    (hr : Reads e.level (qs ++ groupSpans a name us cs true ++ vs) r)
    (hrc : Reads (some .curly) cs (Bracket.curly.closer :: (textAll vs ++ r)))
    (hT : seen T = t ++ textAll (qs ++ groupSpans a name us cs true ++ vs) ++ r)
    (hb : e.Bounds (t ++ textAll (qs ++ groupSpans a name us cs true ++ vs)) r j) (hv : vs ≠ [] ∨ e = .closed)
    (h : (LinedText.ofText T).read (Rule.ofComponents
      (componentsAll (Position.first.past t) (qs ++ groupSpans a name us cs true ++ vs))) [] j = .ok (ns, tr)) :
    Faithful e ns tr := by
  have hown : textAll (groupSpans a name us cs true) =
      a ++ textAll us ++ [Bracket.curly.opener] ++ textAll cs ++ [Bracket.curly.closer] :=
    textAll_groupSpans a name us cs true
  have hT' : seen T = t ++ textAll qs ++ textAll (groupSpans a name us cs true) ++ (textAll vs ++ r) := by
    rw [hT]
    simp only [textAll_append, List.append_assoc]
  have hj (hvs : vs = []) : j = (t ++ textAll (qs ++ groupSpans a name us cs true)).length := by
    subst hvs
    obtain rfl := hv.resolve_left fun h => h rfl
    rw [hb.2, List.append_nil]
  have hT₁ : seen T = t ++ textAll qs ++ a ++ textAll us ++ [Bracket.curly.opener] ++ textAll cs ++
      (Bracket.curly.closer :: (textAll vs ++ r)) := by
    rw [hT', hown]
    simp
  have hlen : (t ++ textAll (qs ++ groupSpans a name us cs true)).length =
      (t ++ textAll qs ++ textAll (groupSpans a name us cs true)).length := by
    rw [textAll_append, List.append_assoc]
  have hbc : Ending.closed.Bounds (t ++ textAll qs ++ a ++ textAll us ++ [Bracket.curly.opener] ++ textAll cs)
      (Bracket.curly.closer :: (textAll vs ++ r))
      ((t ++ textAll qs ++ textAll (groupSpans a name us cs true)).length - 1) := by
    refine ⟨⟨_, rfl⟩, ?_⟩
    rw [hown]
    simp only [List.length_append, List.length_singleton]
    omega
  obtain ⟨g, children, trailing, ms, rfl, ho, hf, hm⟩ := read_group (e := .closed) hg hr hT₁
    (fun y hy => by
      rw [startOf_behind hr hT hj hy, hlen, contentStop_of_closer hT' (by rw [hown, List.getLast?_concat])])
    hrc hbc ihc h
  exact .consGroup ho hf (ihv _ _ _ _ _ _ _ hr.of_append (by rw [hT, textAll_append _ vs]; simp only [List.append_assoc])
    (by rwa [List.append_assoc t, ← textAll_append]) hm)

theorem readsBack_group {o : Text} (hg : GroupSpans qs a name us) (ihc : ReadsBack cs) (ihv : ReadsBack vs) :
    ReadsBack (qs ++ (.leaf a (.atKeyword name) :: us ++ [.level o (.inr .curly) cs c]) ++ vs) := by
  intro e T t r tr ns j hr hT hb h
  have hl : Reads e.level (.level o (.inr .curly) cs c :: vs) r := by
    have hr' := hr
    rw [← List.append_assoc, List.append_assoc] at hr'
    exact hr'.of_append
  obtain ⟨rfl, hc⟩ := hl.block
  by_cases hv : vs ≠ [] ∨ e = .closed
  · rcases hc with ⟨rfl, hrc⟩ | ⟨-, hvs, hrn, -⟩
    · exact readsBack_closedGroup hg ihc ihv hr hrc hT hb hv h
    · rcases hv with hv | rfl
      · exact absurd hvs hv
      · obtain ⟨⟨r', hr'⟩, -⟩ := hb
        rw [hrn] at hr'
        cases hr'
  · simp only [not_or, not_not] at hv
    obtain ⟨rfl, he⟩ := hv
    cases e with
    | closed => exact absurd rfl he
    | «open» d => exact readsBack_lastGroup hg ihc hr hT hb h

end Groups

/-- Trivia before something that is refused do not help. -/
theorem exists_read_trivia (src : LinedText) {qs : List Span} (hq : ∀ s ∈ qs, s.role? = some .trivia) (p : Position)
    (ds : List Component) (pending : Text) (stop : Nat) :
    ∃ pending', src.read (Rule.ofComponents (componentsAll p qs ++ ds)) pending stop =
      src.read (Rule.ofComponents ds) pending' stop := by
  induction qs generalizing p pending with
  | nil => exact ⟨pending, rfl⟩
  | cons s qs ih =>
    obtain ⟨pending', h⟩ := ih (fun u hu => hq u (List.mem_cons_of_mem s hu)) (p.past s.text) (pending ++ src.slice
      (src.index p) (src.startOf (Rule.ofComponents (componentsAll (p.past s.text) qs ++ ds)) stop))
    refine ⟨pending', ?_⟩
    rw [componentsAll, List.append_assoc, Rule.ofComponents_trivia (hq s List.mem_cons_self), LinedText.read_trivia, h]

theorem Reads.length_lt {k : Option Bracket} {us ss : List Span} {r : Text} (h : Reads k (us ++ ss) r) (hu : us ≠ []) :
    (textAll ss).length < (textAll (us ++ ss)).length := by
  cases us with
  | nil => exact absurd rfl hu
  | cons u us =>
    have hp := List.length_pos_iff.2 h.text_ne_nil
    simp only [List.cons_append, textAll_cons, textAll_append, List.length_append]
    omega

/-- The induction is on the text, which is shorter inside a group and behind a node. -/
theorem readsBack (ss : List Span) : ReadsBack ss := by
  generalize hn : (textAll ss).length = n
  induction n using Nat.strongRecOn generalizing ss with
  | ind n ih =>
    intro e T t r tr ns j hr hT hb h
    obtain ⟨qs, rest, rfl, hq, hrest⟩ := exists_splitWhile (fun u : Span => u.role? = some .trivia) ss
    have hq : ∀ s ∈ qs, s.role? = some .trivia := fun s hs => by simpa using hq s hs
    cases rest with
    | nil =>
      rw [List.append_nil] at hr hT hb h
      exact readsBack_trivia hq e T t r tr ns j hr hT hb h
    | cons s rest =>
      have hs : s.role? ≠ some .trivia := by simpa using hrest s rfl
      rcases LinedText.front_cases hr.of_append.fine hs with
        ⟨us, vs, sel, ended, he, hsolo, hend⟩ | ⟨a, name, us, o, cs, c, vs, he, hu, hg⟩ | herr
      · rw [he, ← List.append_assoc] at hr hT hb h hn
        by_cases hv : vs = []
        · subst hv
          rw [List.append_nil] at hr hT hb h
          exact readsBack_last hq hsolo hsolo.ne_nil e T t r tr ns j hr hT hb h
        · obtain rfl : ended = true := by
            cases ended with
            | true => rfl
            | false => exact absurd (hend rfl) hv
          have hlt := hr.length_lt (by simp [hsolo.ne_nil])
          exact readsBack_cons hq hsolo hv (ih _ (hn ▸ hlt) vs rfl) e T t r tr ns j hr hT hb h
      · have he' : qs ++ s :: rest = qs ++ (.leaf a (.atKeyword name) :: us ++ [.level o (.inr .curly) cs c]) ++ vs := by
          rw [he]
          simp
        rw [he] at hr
        have ha : 0 < a.length := List.length_pos_iff.2 hr.of_append.text_ne_nil
        rw [← he, he'] at hr
        rw [he'] at hT hb h hn
        have hv := hr.length_lt (by simp)
        have hc : (textAll cs).length < n := by
          simp only [textAll_append, textAll_cons, Span.text, List.cons_append, List.length_append] at hn
          omega
        exact readsBack_group ⟨hq, hu, hg⟩ (ih _ hc cs rfl) (ih _ (hn ▸ hv) vs rfl) e T t r tr ns j hr hT hb h
      · obtain ⟨pending', hp⟩ := exists_read_trivia (.ofText T) hq (Position.first.past t)
          (componentsAll ((Position.first.past t).past (textAll qs)) (s :: rest)) [] j
        obtain ⟨x, hx⟩ := herr (.ofText T) ((Position.first.past t).past (textAll qs)) pending' j
        rw [componentsAll_append, hp, hx] at h
        cases h

end StylePrune.Css
