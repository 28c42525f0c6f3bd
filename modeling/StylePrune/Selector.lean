import StylePrune.Text.Blank
import StylePrune.Text.Lowercase

/-!
The text of one selector: its normal form, and whether a rule may ever be deleted because of it.
Only five narrow shapes are eligible; everything else is kept, used or not.
-/

set_option autoImplicit false

namespace StylePrune.Selector

/-- Runs of blanks become one space and the ends are bare. -/
def normalize (s : Text) : Text := Text.strip (Text.collapseBlanks s)

/-- Selectors that a page depends on whatever it looks like. -/
def critical : List Text :=
  ["html", "body", "*", ":root", "head", "title", "meta", "link", "script", "style", "base"]

/-- Letter case does not matter. -/
def isCritical (s : Text) : Bool := critical.contains (Text.lower (normalize s))

/-- Words that stand for effects a single look at a page cannot rule out. -/
def effectWords : List Text :=
  ["keyframes", "animation", "transform", "transition", "filter", "mask", "clip-path"]

def vendorMarks : List Text := ["-webkit-", "-moz-", "-ms-", "-o-"]

/-- The plain letter that a letter stands for when case is ignored. -/
def foldLetter (c : CodePoint) : CodePoint :=
  if c = '\u212A' then 'k'
  else if c = '\u017F' then 's'
  else if c = '\u0130' ∨ c = '\u0131' then 'i'
  else c.toLower

/-- A colon right before a letter. -/
def hasPseudo : Text → Bool
  | c :: d :: s => (c == ':' && d.isAlpha) || hasPseudo (d :: s)
  | _ => false

/-- Pseudo classes, at signs, custom names, vendor marks, effect words, attributes, combinators
and calls: a selector with any of these is kept for good. -/
def isAlwaysKept (s : Text) : Bool :=
  hasPseudo s || s.contains '@' || Text.includes s "--" || vendorMarks.any (Text.includes s) ||
  effectWords.any (Text.includes (s.map foldLetter)) ||
  s.any fun (c : CodePoint) => c == '[' || c == '>' || c == '+' || c == '~' || c == '('

/-- An ASCII letter, then letters, digits, underscores and dashes. -/
def isPlainIdent : Text → Bool
  | c :: s => c.isAlpha && s.all fun d => d.isAlphanum || d == '_' || d == '-'
  | [] => false

/-- Two plain identifiers with `mark` between them. -/
def isPlainPair (mark : CodePoint) (s : Text) : Bool :=
  match Text.cutAt? [mark] s with
  | some (a, b) => isPlainIdent a && isPlainIdent b
  | none => false

/-- A tag, a class, an id, a tag with a class, a tag with an id. -/
def isSafeShape (s : Text) : Bool :=
  isPlainIdent s ||
  (match s with | c :: r => (c == '.' || c == '#') && isPlainIdent r | [] => false) ||
  isPlainPair '.' s || isPlainPair '#' s

/-- May a rule be deleted when this selector is unused? -/
def isEligible (s : Text) : Bool :=
  let s := normalize s
  s ≠ [] && !isCritical s && !isAlwaysKept s && isSafeShape s

end StylePrune.Selector
