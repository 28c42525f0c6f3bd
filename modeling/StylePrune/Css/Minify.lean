import StylePrune.Css.Serialize

/-!
Taking spacing and comments out of a sheet where they mean nothing: next to blocks in braces,
semicolons, commas, `>` and `~`, after a colon, and before a colon inside a declaration. All other
spacing becomes one space, so combinators between compound selectors and sums in calculations stay.
-/

set_option autoImplicit false

namespace StylePrune.Css

/-- What the neighbours of a piece of text need to know about it. -/
inductive Shape where
  | braces | semicolon | colon
  /-- A comma, `>` or `~`. -/
  | tight
  | plain
  deriving DecidableEq, Repr

inductive Piece where
  | space
  | solid (shape : Shape) (text : Text)
  deriving DecidableEq, Repr

namespace Piece

def isSpace : Piece → Bool
  | .space => true
  | .solid .. => false

def hasShape (s : Shape) : Piece → Bool
  | .space => false
  | .solid t _ => t = s

/-- Spacing next to this piece means nothing. -/
def takesNoSpace (p : Piece) : Bool := p.hasShape .braces || p.hasShape .semicolon || p.hasShape .tight

/-- The next semicolon comes before the next block in braces, or neither comes. -/
def endsBeforeBraces : List Piece → Bool
  | [] => true
  | p :: ps =>
    if p.hasShape .braces then false
    else if p.hasShape .semicolon then true
    else endsBeforeBraces ps

/-- Runs of spacing become one; there is none at the beginning. -/
def collapse : List Piece → List Piece
  | [] => []
  | .space :: ps => collapse ps
  | p :: ps => p :: follow ps
where
  follow : List Piece → List Piece
    | [] => []
    | .space :: ps => match collapse ps with
      | [] => []
      | qs => .space :: qs
    | p :: ps => p :: follow ps

/-- Without what may go at the end of a level: spacing and, in braces, semicolons. -/
def dropEnd (curly : Bool) (ps : List Piece) : List Piece :=
  (ps.reverse.dropWhile fun p => p.isSpace || (curly && p.hasShape .semicolon)).reverse

/-- Is the space between `before` and `after` one that means nothing? -/
def isIdle (before : Piece) (after : List Piece) : Bool :=
  match after with
  | [] => true
  | p :: _ =>
    before.takesNoSpace || p.takesNoSpace || before.hasShape .colon || (p.hasShape .colon && endsBeforeBraces after)

/-- The text of pieces that follow `before`. -/
def textAfter (before : Piece) : List Piece → Text
  | [] => []
  | .space :: ps => (if isIdle before ps then [] else [.char ' ']) ++ textAfter .space ps
  | .solid s t :: ps => t ++ textAfter (.solid s t) ps

def text (ps : List Piece) : Text := textAfter .space ps

def tidy (curly : Bool) (ps : List Piece) : Text := text (dropEnd curly (collapse ps))

end Piece

def Component.shape : Component → Shape
  | .block _ .curly _ => .braces
  | .leaf _ (.literal s) =>
    if s = [.char ';'] then .semicolon
    else if s = [.char ':'] then .colon
    else if s = [.char ','] ∨ s = [.char '>'] ∨ s = [.char '~'] then .tight
    else .plain
  | _ => .plain

mutual
def Component.piece : Component → Piece
  | .leaf _ (.whitespace _) => .space
  | .leaf _ (.comment _) => .space
  | .leaf p t => .solid (Component.leaf p t).shape t.write
  | .block p b cs =>
    .solid (Component.block p b cs).shape
      (b.opener :: Piece.tidy (b = .curly) (pieces cs) ++ [b.closer])
  | .function _ name args =>
    .solid .plain (writeIdent name ++ .char '(' :: Piece.tidy false (pieces args) ++ [.char ')'])

def pieces : List Component → List Piece
  | [] => []
  | c :: cs => c.piece :: pieces cs
end

def minify (css : Text) : Except Number.TooLong Text :=
  (components css).map fun cs => Piece.tidy false (pieces cs)

end StylePrune.Css
