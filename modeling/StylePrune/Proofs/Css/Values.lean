import StylePrune.Proofs.Css.Rules
import StylePrune.Proofs.Css.Places
import StylePrune.Proofs.Css.Nesting

/-!
The tokens of a text without their places, and the values they nest to. Two texts one after the other have
the tokens of both where the first one ends with a brace or a semicolon and leaves no level open.
-/

set_option autoImplicit false

namespace StylePrune.Css

def lexemes : Text → List Lexeme
  | [] => []
  | c :: s =>
    have := readToken_length c s
    (readToken c s).1 ++ lexemes (readToken c s).2
termination_by s => s.length

@[simp] theorem lexemes_nil : lexemes [] = [] := by rw [lexemes]

theorem lexemes_cons (c : CodePoint) (s : Text) :
    lexemes (c :: s) = (readToken c s).1 ++ lexemes (readToken c s).2 := by rw [lexemes]

theorem map_snd_lexFrom (p : Position) (s : Text) : (lexFrom p s).map Prod.snd = lexemes s := by
  induction hl : s.length using Nat.strongRecOn generalizing s p with
  | ind n ih =>
    subst hl
    cases s with
    | nil => simp [lexFrom]
    | cons c s =>
      rw [lexFrom, lexemes_cons, List.map_append, ih _ (Nat.lt_succ_of_le (readToken_length c s)) _ _ rfl]
      simp [Function.comp_def]

/-- The values of tokens, all in the first place. -/
def values (ls : List Lexeme) : List Component := nest (ls.map (Position.first, ·))

section Places

theorem placelessAll_reverse (cs : List Component) : placelessAll cs.reverse = (placelessAll cs).reverse := by
  induction cs with
  | nil => rfl
  | cons c cs ih => simp [placelessAll, placelessAll_append, ih]

def Level.placeless (l : Level) : Level := ⟨.first, l.head, placelessAll l.before⟩

theorem Level.placeless_component_eq (l : Level) (cs : List Component) :
    (l.component cs).placeless = l.placeless.component (placelessAll cs) := by
  obtain ⟨p, h, before⟩ := l
  cases h <;> rfl

namespace Nesting

def placeless (n : Nesting) : Nesting := ⟨n.levels.map Level.placeless, placelessAll n.current⟩

theorem placeless_step (n : Nesting) (p : Position) (l : Lexeme) :
    (n.step (p, l)).placeless = n.placeless.step (.first, l) := by
  cases l with
  | leaf t => rfl
  | opening b => rfl
  | function name => rfl
  | closing b =>
    obtain ⟨_ | ⟨l, ls⟩, cs⟩ := n
    · rfl
    · by_cases hb : l.closer = b
      · have hb' : l.placeless.closer = b := hb
        simp [step, placeless, hb, hb', Level.placeless_component_eq, placelessAll_reverse, placelessAll]
        rfl
      · have hb' : l.placeless.closer ≠ b := hb
        simp [step, placeless, hb, hb', add, placelessAll, Component.placeless]

theorem placelessAll_finish (n : Nesting) : placelessAll n.finish = n.placeless.finish := by
  obtain ⟨ls, cs⟩ := n
  simp only [finish, placeless]
  induction ls generalizing cs with
  | nil => exact placelessAll_reverse cs
  | cons l ls ih =>
    rw [closeAll, ih, List.map_cons, closeAll, placelessAll, Level.placeless_component_eq, placelessAll_reverse]
    rfl

end Nesting

theorem placelessAll_nest (ts : List (Position × Lexeme)) : placelessAll (nest ts) = values (ts.map Prod.snd) := by
  have hfold (n : Nesting) : (ts.foldl Nesting.step n).placeless =
      ((ts.map Prod.snd).map (Position.first, ·)).foldl Nesting.step n.placeless := by
    induction ts generalizing n with
    | nil => rfl
    | cons t ts ih => rw [List.foldl_cons, ih, Nesting.placeless_step]; rfl
  rw [nest, Nesting.placelessAll_finish, hfold]
  rfl

/-- The first number of a text that is too long. -/
def tooLong? (s : Text) : Option Number.TooLong := (lexemes s).findSome? Lexeme.tooLong?

@[simp] theorem tooLong?_nil : tooLong? [] = none := by simp [tooLong?]

/-- A text has component values if none of its numbers is too long. -/
theorem exists_components_iff {s : Text} : (∃ cs, components s = .ok cs) ↔ tooLong? (preprocess s) = none := by
  have he : (lex s).findSome? (fun t => t.2.tooLong?) = tooLong? (preprocess s) := by
    rw [tooLong?, ← map_snd_lexFrom .first, List.findSome?_map]
    rfl
  rw [components, he]
  cases tooLong? (preprocess s) <;> simp

theorem placelessAll_of_components {s : Text} {cs : List Component} (h : components s = .ok cs) :
    placelessAll cs = values (lexemes (preprocess s)) := by
  unfold components at h
  split at h
  · cases h
  · obtain rfl := Except.ok.inj h
    rw [placelessAll_nest, lex, map_snd_lexFrom]

end Places

namespace Nesting

/-- The levels with more below the outermost one, in reverse. -/
def raise (base : List Component) : List Level → List Level
  | [] => []
  | [l] => [{ l with before := l.before ++ base }]
  | l :: l' :: ls => l :: raise base (l' :: ls)

/-- A nesting with more before all of it, in reverse. -/
def after (base : List Component) (n : Nesting) : Nesting :=
  ⟨raise base n.levels, if n.levels = [] then n.current ++ base else n.current⟩

theorem step_after (base : List Component) (n : Nesting) (x : Position × Lexeme) :
    (n.after base).step x = (n.step x).after base := by
  obtain ⟨p, l⟩ := x
  obtain ⟨ls, cs⟩ := n
  have add (c : Component) : ((Nesting.mk ls cs).after base).add c = ((Nesting.mk ls cs).add c).after base := by
    cases ls <;> simp [Nesting.add, after]
  have openLevel (h : Text ⊕ Bracket) :
      ((Nesting.mk ls cs).after base).openLevel p h = ((Nesting.mk ls cs).openLevel p h).after base := by
    cases ls <;> simp [Nesting.openLevel, after, raise]
  cases l with
  | leaf t => exact add _
  | opening b => exact openLevel _
  | function name => exact openLevel _
  | closing b =>
    cases ls with
    | nil => exact add _
    | cons l ls =>
      cases ls with
      | nil =>
        have hb : (Level.mk l.pos l.head (l.before ++ base)).closer = l.closer := rfl
        have hc (ds : List Component) :
            (Level.mk l.pos l.head (l.before ++ base)).component ds = l.component ds := rfl
        simp only [step, after, raise, hb, hc]
        split <;> simp [raise, Nesting.add]
      | cons l' ls =>
        simp only [step, after, raise]
        split <;> simp [Nesting.add, raise]

theorem finish_after (base : List Component) (n : Nesting) : (n.after base).finish = base.reverse ++ n.finish := by
  obtain ⟨ls, cs⟩ := n
  simp only [finish]
  induction ls generalizing cs with
  | nil => simp [after, raise, closeAll]
  | cons l ls ih =>
    cases ls with
    | nil =>
      have hc (ds : List Component) :
          (Level.mk l.pos l.head (l.before ++ base)).component ds = l.component ds := rfl
      simp [after, raise, closeAll, hc]
    | cons l' ls => simpa [after, raise, closeAll] using ih (l.component cs.reverse :: l.before)

end Nesting

/-- The state after some tokens. -/
def nesting (ls : List Lexeme) : Nesting := (ls.map (Position.first, ·)).foldl Nesting.step .start

theorem values_eq (ls : List Lexeme) : values ls = (nesting ls).finish := rfl

/-- What stands behind tokens that leave no level open nests by itself. -/
theorem values_append {ls : List Lexeme} {cs : List Component} (h : nesting ls = ⟨[], cs⟩) (ls' : List Lexeme) :
    values (ls ++ ls') = cs.reverse ++ values ls' := by
  have hstart : nesting ls = Nesting.start.after cs := by simp [h, Nesting.after, Nesting.start, Nesting.raise]
  have hfold (n : Nesting) (ts : List (Position × Lexeme)) :
      ts.foldl Nesting.step (n.after cs) = (ts.foldl Nesting.step n).after cs := by
    induction ts generalizing n with
    | nil => rfl
    | cons t ts ih => rw [List.foldl_cons, List.foldl_cons, Nesting.step_after, ih]
  rw [values_eq, nesting, List.map_append, List.foldl_append, ← nesting, hstart, hfold, Nesting.finish_after]
  rfl

theorem values_of_nesting {ls : List Lexeme} {cs : List Component} (h : nesting ls = ⟨[], cs⟩) :
    values ls = cs.reverse := by
  rw [values_eq, h]
  rfl

theorem values_leaf (t : Leaf) (ls : List Lexeme) : values (.leaf t :: ls) = .leaf .first t :: values ls :=
  values_append (show nesting [.leaf t] = ⟨[], [.leaf .first t]⟩ from rfl) ls

end StylePrune.Css
