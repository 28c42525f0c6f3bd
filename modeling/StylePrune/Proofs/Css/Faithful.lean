import StylePrune.Proofs.Css.Braces
import StylePrune.Proofs.Css.Outline
import StylePrune.Proofs.Css.Prune

/-!
Trees that read back. A node that something follows has a text that reads as the node whatever
follows; the last node of a sheet, or of a group that the end of the sheet closes, needs that only
with the braces that the groups around it put behind it.
-/

set_option autoImplicit false

namespace StylePrune.Css

@[simp] theorem length_braces (n : Nat) : (braces n).length = n := List.length_replicate ..

/-- Braces at the end of a text do not reach over a character that is none. -/
theorem length_lt_of_append_braces {s t x : Text} {d : Nat} (h : s ++ braces d = t ++ x) (hn : x ≠ [])
    (hx : x.head? ≠ some Bracket.curly.closer) : t.length < s.length := by
  by_contra hl
  obtain ⟨u, rfl⟩ : ∃ u, t = s ++ u := by
    rcases List.append_eq_append_iff.1 h with ⟨u, hu, -⟩ | ⟨u, hu, -⟩
    · exact ⟨u, hu⟩
    · have := congrArg List.length hu
      simp only [List.length_append] at this
      have hz : u = [] := List.length_eq_zero_iff.1 (by omega)
      exact ⟨[], by rw [hu, hz]; simp⟩
  rw [List.append_assoc] at h
  have hb := List.append_cancel_left h
  cases x with
  | nil => exact hn rfl
  | cons c x =>
    have hc : c ∈ braces d := by
      rw [hb]
      exact List.mem_append_right u List.mem_cons_self
    exact hx (congrArg some (List.eq_of_mem_replicate hc))

/-- What ends some nodes: the brace of their group, or the end of the text behind the braces of the groups
around them. -/
inductive Ending where
  | closed
  | open (depth : Nat)

namespace Ending

/-- The bracket that closes the level of the nodes. -/
def level : Ending → Option Bracket
  | closed => some .curly
  | .open 0 => none
  | .open (_ + 1) => some .curly

/-- What stands behind the nodes. -/
def Fits : Ending → Text → Prop
  | closed, r => ∃ r', r = Bracket.curly.closer :: r'
  | .open d, r => r = braces d

/-- The text reads as spans. Of the braces behind it the last spans may take some. -/
def Covers : Ending → Text → List Span → Prop
  | closed, s, ss => textAll ss = s ∧ ∀ r, Reads (some .curly) ss (Bracket.curly.closer :: r)
  | .open d, s, ss => ∃ b, b ≤ d ∧ textAll ss ++ braces b = s ++ braces d ∧ Reads (Ending.open d).level ss (braces b)

theorem covers_nil (e : Ending) : e.Covers [] [] := by
  match e with
  | closed => exact ⟨rfl, fun r => .stop⟩
  | .open 0 => exact ⟨0, Nat.le_refl 0, rfl, .nil⟩
  | .open (d + 1) => exact ⟨d + 1, Nat.le_refl _, rfl, .stop⟩

variable {e : Ending} {s r : Text} {ss us : List Span}

/-- With what stands behind, the text is that of the spans and of what they leave. -/
theorem Covers.exists_rest (h : e.Covers s ss) (hr : e.Fits r) :
    ∃ w, s ++ r = textAll ss ++ w ∧ Reads e.level ss w := by
  cases e with
  | closed =>
    obtain ⟨r', rfl⟩ := hr
    exact ⟨_, by rw [h.1], h.2 r'⟩
  | «open» d =>
    obtain rfl := hr
    obtain ⟨b, -, he, hs⟩ := h
    exact ⟨braces b, he.symm, hs⟩

theorem Covers.eq_nil (h : e.Covers s []) : s = [] := by
  cases e with
  | closed => exact h.1.symm
  | «open» d =>
    obtain ⟨b, hb, he, -⟩ := h
    have hl := congrArg List.length he
    simp only [textAll_nil, List.nil_append, List.length_append, length_braces] at hl
    exact List.length_eq_zero_iff.1 (by omega)

theorem Covers.length_lt {u : Span} {vs : List Span} (h : e.Covers s (us ++ u :: vs)) :
    (textAll us).length < s.length := by
  cases e with
  | closed =>
    have hu := List.length_pos_iff.2 (h.2 []).of_append.text_ne_nil
    rw [← h.1, textAll_append, textAll_cons]
    simp only [List.length_append]
    omega
  | «open» d =>
    obtain ⟨b, hb, he, hs⟩ := h
    have hu := hs.of_append.text_ne_nil
    cases d with
    | zero =>
      obtain rfl : b = 0 := Nat.le_zero.1 hb
      have hl := congrArg List.length he
      have hp := List.length_pos_iff.2 hu
      simp only [textAll_append, textAll_cons, List.length_append] at hl
      omega
    | succ d =>
      refine length_lt_of_append_braces (x := textAll (u :: vs) ++ braces b) (by rw [← he]; simp) (by simp [hu]) ?_
      rw [textAll_cons, List.append_assoc, List.head?_append_of_ne_nil _ hu]
      exact hs.of_append.head_ne (.inl rfl)

end Ending

/-- Spans that read the same whatever follows. -/
def Stands (k : Option Bracket) (us : List Span) : Prop := ∀ zs r, Reads k zs r → Reads k (us ++ zs) r

/-- Spans that read the same whatever follows behind a brace. -/
def Leads (k : Option Bracket) (us : List Span) : Prop :=
  ∀ zs r v, textAll zs ++ r = Bracket.curly.opener :: v → Reads k zs r → Reads k (us ++ zs) r

/-- The text of a group up to its brace reads as the group. -/
def Group.Opens (k : Option Bracket) (g : Group) : Prop :=
  ∃ qs us a name, (∀ s ∈ qs, s.role? = some .trivia) ∧ textAll qs = seen g.leading ∧
    (∀ s ∈ us, s.isPlain = true) ∧ a ++ textAll us = seen g.head ∧
    Text.asciiLower name = g.name ∧ g.name ∈ groupNames ∧
    Selector.normalize (writeAll (componentsAll .first us)) = g.prelude ∧
    Leads k (qs ++ .leaf a (.atKeyword name) :: us)

/-- Nodes and the text behind them that read back as they are. -/
inductive Faithful : Ending → List Node → Text → Prop where
  | trail {e : Ending} {tr : Text} {qs : List Span} :
      (∀ s ∈ qs, s.role? = some .trivia) → e.Covers (seen tr) qs → Faithful e [] tr
  | last {e : Ending} {n : Node} {l x : Text} {sel : Option (List Text)} {qs us : List Span} {ended : Bool} :
      n.outline? = some (l, x, sel) → (∀ s ∈ qs, s.role? = some .trivia) → textAll qs = seen l →
      Solo us sel ended → e.Covers (seen (l ++ x)) (qs ++ us) → Faithful e [n] []
  | cons {e : Ending} {n : Node} {l x tr : Text} {sel : Option (List Text)} {qs us : List Span} {ns : List Node} :
      n.outline? = some (l, x, sel) → (∀ s ∈ qs, s.role? = some .trivia) → textAll qs = seen l →
      textAll us = seen x → Solo us sel true → Stands e.level (qs ++ us) → Faithful e ns tr → Faithful e (n :: ns) tr
  | lastGroup {d : Nat} {g : Group} {cs : List Node} {tr : Text} :
      g.Opens (Ending.open d).level → Faithful (.open (d + 1)) cs tr → Faithful (.open d) [.group g cs tr] []
  | consGroup {e : Ending} {g : Group} {cs ns : List Node} {t tr : Text} :
      g.Opens e.level → Faithful .closed cs t → Faithful e ns tr → Faithful e (.group g cs t :: ns) tr

theorem Faithful.nil (e : Ending) : Faithful e [] [] := .trail (List.forall_mem_nil _) e.covers_nil

theorem Node.prune_of_outline? {n : Node} {o : Text × Text × Option (List Text)} (h : n.outline? = some o) (st : Statuses) :
    (n.prune st).1 = none ∨ (n.prune st).1 = some n := by
  cases n with
  | block b => by_cases hd : b.isDead st <;> simp [Node.prune, hd]
  | group g cs t => cases h
  | statement s => exact .inr rfl

/-- What pruning leaves of nodes that read back reads back. -/
theorem Faithful.prune (st : Statuses) {e : Ending} {ns : List Node} {tr : Text} (h : Faithful e ns tr) :
    Faithful e (pruneAll st ns).1 tr := by
  have group (g : Group) (cs : List Node) (t : Text) :
      ((Node.group g cs t).prune st).1 = none ∨ ((Node.group g cs t).prune st).1 = some (.group g (pruneAll st cs).1 t) := by
    simp only [Node.prune]
    split
    · exact .inr rfl
    · exact .inl rfl
  induction h with
  | trail hq hc => exact .trail hq hc
  | last ho hq hl hs hc =>
    rcases Node.prune_of_outline? ho st with h | h
    · simpa [pruneAll, h] using Faithful.nil _
    · simpa [pruneAll, h] using Faithful.last ho hq hl hs hc
  | cons ho hq hl hx hs hst _ ih =>
    rcases Node.prune_of_outline? ho st with h | h
    · simpa [pruneAll, h] using ih
    · simpa [pruneAll, h] using Faithful.cons ho hq hl hx hs hst ih
  | @lastGroup d g cs tr ho _ ih =>
    rcases group g cs tr with h | h
    · simpa [pruneAll, h] using Faithful.nil _
    · simpa [pruneAll, h] using Faithful.lastGroup ho ih
  | @consGroup e g cs ns t tr ho _ _ ihc ih =>
    rcases group g cs t with h | h
    · simpa [pruneAll, h] using ih
    · simpa [pruneAll, h] using Faithful.consGroup ho ihc ih

end StylePrune.Css
