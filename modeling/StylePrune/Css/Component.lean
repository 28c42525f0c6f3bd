import StylePrune.Css.Lexer
import StylePrune.Number.Limit

/-!
Component values: the tokens of a sheet with blocks and functions nested. A closer that does not
match the innermost open level is an error token; the end of the sheet closes what is open.
-/

set_option autoImplicit false

namespace StylePrune.Css

inductive Component where
  | leaf (pos : Position) (t : Leaf)
  | block (pos : Position) (b : Bracket) (content : List Component)
  | function (pos : Position) (name : Text) (arguments : List Component)
  deriving Repr

namespace Component

def pos : Component → Position
  | .leaf p _ | .block p _ _ | .function p _ _ => p

/-- Number of components at every depth. -/
def size : Component → Nat
  | .leaf .. => 1
  | .block _ _ cs => 1 + sizeAll cs
  | .function _ _ cs => 1 + sizeAll cs
where
  sizeAll : List Component → Nat
    | [] => 0
    | c :: cs => c.size + sizeAll cs

theorem size_pos (c : Component) : 0 < c.size := by
  cases c <;> simp only [size] <;> omega

@[simp] theorem sizeAll_append (cs ds : List Component) :
    size.sizeAll (cs ++ ds) = size.sizeAll cs + size.sizeAll ds := by
  induction cs <;> simp_all [size.sizeAll]; omega

def isMark (s : Text) : Component → Bool
  | .leaf _ (.literal t) => t == s
  | _ => false

def isTrivia : Component → Bool
  | .leaf _ (.whitespace _) | .leaf _ (.comment _) => true
  | _ => false

/-- The error of a component that is an error token. -/
def error? : Component → Option (Position × TokenError)
  | .leaf p (.error e) => some (p, e)
  | _ => none

end Component

/-- A level that is still open: what opened it and, in reverse, what stood before it. -/
structure Level where
  pos : Position
  /-- The name of a function, or the bracket of a block. -/
  head : Text ⊕ Bracket
  before : List Component
  deriving Repr

namespace Level

def closer (l : Level) : Bracket :=
  match l.head with
  | .inl _ => .round
  | .inr b => b

/-- The component that a level becomes when it closes around `content`. -/
def component (l : Level) (content : List Component) : Component :=
  match l.head with
  | .inl name => .function l.pos name content
  | .inr b => .block l.pos b content

end Level

/-- The open levels, innermost first, and the components of the innermost one in reverse. -/
structure Nesting where
  levels : List Level
  current : List Component
  deriving Repr

namespace Nesting

def start : Nesting := ⟨[], []⟩

def add (n : Nesting) (c : Component) : Nesting := { n with current := c :: n.current }

def openLevel (n : Nesting) (p : Position) (head : Text ⊕ Bracket) : Nesting :=
  ⟨⟨p, head, n.current⟩ :: n.levels, []⟩

def step (n : Nesting) : Position × Lexeme → Nesting
  | (p, .leaf t) => n.add (.leaf p t)
  | (p, .opening b) => n.openLevel p (.inr b)
  | (p, .function name) => n.openLevel p (.inl name)
  | (p, .closing b) => match n.levels with
    | l :: ls =>
      if l.closer = b then ⟨ls, l.component n.current.reverse :: l.before⟩
      else n.add (.leaf p (.error (.unmatched b)))
    | [] => n.add (.leaf p (.error (.unmatched b)))

/-- Closes every level that is still open. -/
def closeAll : List Level → List Component → List Component
  | [], current => current.reverse
  | l :: ls, current => closeAll ls (l.component current.reverse :: l.before)

def finish (n : Nesting) : List Component := closeAll n.levels n.current

end Nesting

def nest (ts : List (Position × Lexeme)) : List Component := (ts.foldl Nesting.step .start).finish

/-- A number without fraction and exponent that has too many digits. -/
def Lexeme.tooLong? : Lexeme → Option Number.TooLong
  | .leaf (.number repr) | .leaf (.percentage repr) | .leaf (.dimension repr _) =>
    if repr.any fun (c : CodePoint) => c == '.' || c == 'e' || c == 'E' then none
    else Number.tooLong? (repr.countP CodePoint.isDigit)
  | _ => none

/-- Component values of a sheet, comments included. One number that is too long is enough to have none. -/
def components (s : Text) : Except Number.TooLong (List Component) :=
  match (lex s).findSome? fun t => t.2.tooLong? with
  | some t => .error t
  | none => .ok (nest (lex s))

end StylePrune.Css
