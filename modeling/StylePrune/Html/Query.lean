import StylePrune.Css.Reader
import StylePrune.Html.Page

/-!
Asking a page whether some element of it matches a selector. Selectors that look at one element alone
can be asked; any other counts as one that matches, because its rule is then kept.
-/

set_option autoImplicit false

namespace StylePrune.Html

/-- One condition on one element. -/
inductive Condition where
  | any
  | tag (name : Text)
  | className (name : Text)
  | id (name : Text)
  /-- A state that no element has before somebody uses the page. -/
  | momentary
  deriving DecidableEq, Repr

/-- Tag names are compared without letter case, classes and ids with it. -/
def Condition.holds (e : Element) : Condition → Bool
  | .any => true
  | .tag name => Text.asciiLower e.name = Text.asciiLower name
  | .className name => e.classes.contains name
  | .id name => e.id?.getD [] = name
  | .momentary => false

/-- Pseudo-classes for what a reader does with an element. -/
def momentaryNames : List Text := [
  "active", "autofill", "current", "focus", "focus-visible", "focus-within", "future", "host", "hover",
  "local-link", "past", "paused", "playing", "target", "target-within", "user-invalid", "visited"]

/-- Conditions that may follow each other. -/
def furtherConditions? : List Css.Component → Option (List Condition)
  | [] => some []
  | .leaf _ (.hash name true) :: cs => (furtherConditions? cs).map (.id name :: ·)
  | .leaf _ (.literal ['.']) :: .leaf _ (.ident name) :: cs => (furtherConditions? cs).map (.className name :: ·)
  | .leaf _ (.literal [':']) :: .leaf _ (.ident name) :: cs =>
    if momentaryNames.contains (Text.asciiLower name) then (furtherConditions? cs).map (.momentary :: ·) else none
  | _ => none

/-- The conditions of one alternative; only the first may be on the tag. -/
def conditions? : List Css.Component → Option (List Condition)
  | [] => none
  | .leaf _ (.ident name) :: cs => (furtherConditions? cs).map (.tag name :: ·)
  | .leaf _ (.literal ['*']) :: cs => (furtherConditions? cs).map (.any :: ·)
  | cs => furtherConditions? cs

def isBlank : Css.Component → Bool
  | .leaf _ (.whitespace _) => true
  | _ => false

/-- What a selector list asks: one of its alternatives must hold. -/
def query? (selector : Text) : Option (List (List Condition)) :=
  match Css.components selector with
  | .error _ => none
  | .ok cs => (Css.splitAtCommas cs).mapM fun cs =>
    conditions? (((cs.dropWhile isBlank).reverse.dropWhile isBlank).reverse)

/-- Does some element match? A selector that cannot be asked is taken to match. -/
def Page.selects (p : Page) (selector : Text) : Bool :=
  match query? selector with
  | none => true
  | some q => p.elements.any fun e => q.any fun conditions => conditions.all (·.holds e)

end StylePrune.Html
