import StylePrune.Text.Basic

/-!
A stylesheet as a tree of rules. Every node keeps the text it was read from and the spacing and
comments before it, so that a tree nobody touched renders to its source and a node that goes takes
its surroundings along.
-/

set_option autoImplicit false

namespace StylePrune.Css

/-- A style rule. Without `source` it renders from its prelude and body. -/
structure Block where
  leading : Text
  source : Option Text
  prelude : Text
  body : Text
  selectors : List Text
  deriving DecidableEq, Repr

/-- An at-rule that groups rules: its text up to the opening brace, and its condition. -/
structure Group where
  leading : Text
  name : Text
  head : Text
  prelude : Text
  deriving DecidableEq, Repr

/-- Any other at-rule, kept as it is. An import names its target and its media. -/
structure Statement where
  leading : Text
  name : Text
  source : Text
  importUrl : Option Text
  importMedia : Option Text
  deriving DecidableEq, Repr

inductive Node where
  | block (b : Block)
  | group (g : Group) (children : List Node) (trailing : Text)
  | statement (s : Statement)
  deriving Repr

structure Sheet where
  children : List Node
  trailing : Text
  deriving Repr

/-- A rule as its prelude and body alone. -/
def Block.plain (b : Block) : Text := b.leading ++ b.prelude ++ .char '\x7b' :: b.body ++ [.char '\x7d']

def Block.render (b : Block) : Text :=
  match b.source with
  | some s => b.leading ++ s
  | none => b.plain

mutual
def Node.render : Node → Text
  | .block b => b.render
  | .group g cs trailing => g.leading ++ g.head ++ .char '\x7b' :: renderAll cs ++ trailing ++ [.char '\x7d']
  | .statement s => s.leading ++ s.source

def renderAll : List Node → Text
  | [] => []
  | n :: ns => n.render ++ renderAll ns
end

def Sheet.render (s : Sheet) : Text := renderAll s.children ++ s.trailing

/-- The media that hold inside a group. -/
def Group.mediaWithin (g : Group) (media : Option Text) : Option Text :=
  if g.name = "media" ∧ g.prelude ≠ [] then
    match media with
    | some m => some (m ++ " and " ++ g.prelude)
    | none => some g.prelude
  else media

/-- A selector and the media under which its rule holds. -/
abbrev Use := Text × Option Text

instance : LawfulBEq Use := inferInstance

mutual
def Node.uses (media : Option Text) : Node → List Use
  | .block b => b.selectors.map (·, media)
  | .group g cs _ => usesAll (g.mediaWithin media) cs
  | .statement _ => []

def usesAll (media : Option Text) : List Node → List Use
  | [] => []
  | n :: ns => n.uses media ++ usesAll media ns
end

/-- Every selector of every style rule in order, with its media. -/
def Sheet.uses (s : Sheet) : List Use := usesAll none s.children

def Sheet.statements (s : Sheet) : List Statement :=
  s.children.filterMap fun | .statement t => some t | _ => none

end StylePrune.Css
