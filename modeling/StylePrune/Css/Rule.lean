import StylePrune.Css.Component

/-!
Rules of a sheet, or of the block of an at-rule: statements that start with an at-keyword and
qualified rules that run to their block.
-/

set_option autoImplicit false

namespace StylePrune.Css

inductive Rule where
  | trivia (pos : Position)
  | qualified (pos : Position) (prelude content : List Component)
  | atRule (pos : Position) (name : Text) (prelude : List Component) (content : Option (List Component))
  /-- A qualified rule without block; its position is that of the last component. -/
  | unfinished (pos : Position)
  deriving Repr

namespace Rule

def pos : Rule → Position
  | .trivia p | .qualified p _ _ | .atRule p _ _ _ | .unfinished p => p

/-- The prelude of an at-rule, its block and what follows it. -/
def takeAtRule : List Component → List Component × Option (List Component) × List Component
  | [] => ([], none, [])
  | .block _ .curly content :: cs => ([], some content, cs)
  | c :: cs =>
    if c.isMark ";" then ([], none, cs)
    else
      let r := takeAtRule cs
      (c :: r.1, r.2)

/-- The prelude of a qualified rule, its block, if there is one, and what follows it. -/
def takeQualified : List Component → List Component × Option (List Component) × List Component
  | [] => ([], none, [])
  | .block _ .curly content :: cs => ([], some content, cs)
  | c :: cs =>
    let r := takeQualified cs
    (c :: r.1, r.2)

def contentSize (content : Option (List Component)) : Nat :=
  (content.map Component.size.sizeAll).getD 0

theorem takeAtRule_size (cs : List Component) :
    contentSize (takeAtRule cs).2.1 + Component.size.sizeAll (takeAtRule cs).2.2 ≤
      Component.size.sizeAll cs := by
  fun_induction takeAtRule cs with
  | case1 => simp [contentSize, Component.size.sizeAll]
  | case2 => simp [contentSize, Component.size.sizeAll, Component.size]
  | case3 => simp [contentSize, Component.size.sizeAll]
  | case4 c cs _ _ r ih =>
    simp only [Component.size.sizeAll, r]
    omega

theorem takeQualified_size (cs : List Component) :
    contentSize (takeQualified cs).2.1 + Component.size.sizeAll (takeQualified cs).2.2 ≤
      Component.size.sizeAll cs := by
  fun_induction takeQualified cs with
  | case1 => simp [contentSize, Component.size.sizeAll]
  | case2 => simp [contentSize, Component.size.sizeAll, Component.size]
  | case3 c cs _ r ih =>
    simp only [Component.size.sizeAll, r]
    omega

/-- The rule that starts with `c`. -/
def ofQualified (c : Component) (cs : List Component) : Rule :=
  let (prelude, content, _) := takeQualified (c :: cs)
  match content with
  | some content => .qualified c.pos prelude content
  | none => .unfinished ((prelude.getLast?.getD c).pos)

theorem takeQualified_rest_length (cs : List Component) :
    (takeQualified cs).2.2.length ≤ cs.length - 1 := by
  fun_induction takeQualified cs with
  | case1 => simp
  | case2 => simp
  | case3 c cs _ r ih => simp only [List.length_cons, r]; omega

theorem takeAtRule_rest_length (cs : List Component) : (takeAtRule cs).2.2.length ≤ cs.length := by
  fun_induction takeAtRule cs with
  | case1 => simp
  | case2 => simp
  | case3 => simp
  | case4 c cs _ _ r ih => simp only [List.length_cons, r]; omega

/-- The rules of a list of components. The marks of an HTML comment between rules count for nothing. -/
def ofComponents : List Component → List Rule
  | [] => []
  | c :: cs =>
    if c.isTrivia then .trivia c.pos :: ofComponents cs
    else if c.isMark "<!--" || c.isMark "-->" then ofComponents cs
    else match c with
    | .leaf p (.atKeyword name) =>
      have := takeAtRule_rest_length cs
      .atRule p name (takeAtRule cs).1 (takeAtRule cs).2.1 :: ofComponents (takeAtRule cs).2.2
    | c =>
      have : (takeQualified (c :: cs)).2.2.length ≤ cs.length := takeQualified_rest_length (c :: cs)
      ofQualified c cs :: ofComponents (takeQualified (c :: cs)).2.2
termination_by cs => cs.length

/-- Bounds what the blocks of at-rules hold. -/
def size : Rule → Nat
  | .atRule _ _ _ content => 1 + contentSize content
  | _ => 1

def sizeAll : List Rule → Nat
  | [] => 0
  | r :: rs => r.size + sizeAll rs

theorem sizeAll_ofComponents (cs : List Component) :
    sizeAll (ofComponents cs) ≤ Component.size.sizeAll cs := by
  fun_induction ofComponents cs with
  | case1 => simp [sizeAll]
  | case2 c cs h ih =>
    have := c.size_pos
    simp only [sizeAll, size, Component.size.sizeAll] at *
    omega
  | case3 c cs h h' ih =>
    simp only [Component.size.sizeAll] at *
    omega
  | case4 cs p name h hl h' ih =>
    have := takeAtRule_size cs
    simp only [sizeAll, size, Component.size.sizeAll, Component.size] at *
    omega
  | case5 cs c _ _ _ _ ih =>
    have hq := takeQualified_size (c :: cs)
    have hs : (ofQualified c cs).size ≤ 1 := by
      simp only [ofQualified]; split <;> simp [size]
    have := c.size_pos
    have hc : contentSize (takeQualified (c :: cs)).2.1 +
        Component.size.sizeAll (takeQualified (c :: cs)).2.2 + 1 ≤ Component.size.sizeAll (c :: cs) := by
      cases c with
      | leaf p t =>
        have := takeQualified_size cs
        simp only [takeQualified, Component.size.sizeAll, Component.size]; omega
      | function p n a =>
        have := takeQualified_size cs
        simp only [takeQualified, Component.size.sizeAll, Component.size]; omega
      | block p b content =>
        have := takeQualified_size cs
        cases b <;>
          simp only [takeQualified, Component.size.sizeAll, Component.size, contentSize, Option.map_some,
            Option.getD_some] at * <;> omega
    simp only [sizeAll] at *
    omega

end Rule
end StylePrune.Css
