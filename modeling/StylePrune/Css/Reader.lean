import StylePrune.Css.Rule
import StylePrune.Css.Serialize
import StylePrune.Css.Sheet
import StylePrune.Selector

/-!
Reading a sheet into its tree. Positions are mapped back onto the text, and each node takes the
text from its own start to the start of the next node.
-/

set_option autoImplicit false

namespace StylePrune.Css

/-- What a sheet's grammar can refuse. -/
inductive Fault where
  | unfinishedRule
  | token (e : TokenError)
  deriving DecidableEq, Repr

structure SyntaxError where
  fault : Fault
  pos : Position
  deriving DecidableEq, Repr

def SyntaxError.message (e : SyntaxError) : Text :=
  match e.fault with
  | .unfinishedRule => "EOF reached before \x7b\x7d block for a qualified rule."
  | .token e => e.message

/-- Why a sheet has no tree. -/
inductive ParseError where
  | tooLong (t : Number.TooLong)
  | illFormed (e : SyntaxError)
  deriving DecidableEq, Repr

/-- A text and the offsets at which its lines start. -/
structure LinedText where
  text : Text
  lineStarts : List Nat

namespace LinedText

def linesAfter (at_ : Nat) : Text → List Nat
  | [] => []
  | c :: s => if c = '\n' then (at_ + 1) :: linesAfter (at_ + 1) s else linesAfter (at_ + 1) s

def ofText (s : Text) : LinedText := ⟨s, 0 :: linesAfter 0 s⟩

def index (src : LinedText) (p : Position) : Nat := src.lineStarts.getD (p.line - 1) 0 + p.column - 1

def slice (src : LinedText) (start stop : Nat) : Text := (src.text.drop start).take (stop - start)

end LinedText

/-- The pieces of a prelude between its outermost commas. -/
def splitAtCommas : List Component → List (List Component)
  | [] => [[]]
  | c :: cs =>
    if c.isMark "," then [] :: splitAtCommas cs
    else match splitAtCommas cs with
      | [] => [[c]]
      | w :: ws => (c :: w) :: ws

/-- The normal forms of the selectors of a prelude, empty ones dropped. -/
def selectorsOf (prelude : List Component) : List Text :=
  ((splitAtCommas prelude).map fun cs => Selector.normalize (writeAll cs)).filter (· ≠ [])

def groupNames : List Text := ["media", "supports", "document", "layer", "container"]

/-- The target that a component of an import names. -/
def Component.importUrl? : Component → Option Text
  | .leaf _ (.url v _) | .leaf _ (.string v _) => some v
  | .function _ name args =>
    if Text.asciiLower name = "url" then
      args.findSome? fun | .leaf _ (.string v _) => some v | _ => none
    else none
  | _ => none

/-- Components before the target that do not belong to the media. -/
def Component.isImportFiller : Component → Bool
  | .leaf _ (.whitespace _) => true
  | .function _ name _ => Text.asciiLower name = "url"
  | _ => false

/-- The target of an import, and all the rest of its prelude. -/
def splitImport : List Component → Option Text × List Component
  | [] => (none, [])
  | c :: cs => match c.importUrl? with
    | some u => (some u, cs)
    | none =>
      let r := splitImport cs
      if c.isImportFiller then r else (r.1, c :: r.2)

/-- A text, or nothing where it is empty. -/
def nonempty? (s : Text) : Option Text := if s = [] then none else some s

def statementOf (leading source name : Text) (prelude : List Component) : Statement :=
  if name = "import" then
    let target := splitImport prelude
    ⟨leading, name, source, target.1, nonempty? (Selector.normalize (writeAll target.2))⟩
  else ⟨leading, name, source, none, none⟩

/-- The nodes of rules that run up to `stop`, with `pending` before the first of them, and the
spacing after the last. -/
def LinedText.read (src : LinedText) (rules : List Rule) (pending : Text) (stop : Nat) :
    Except SyntaxError (List Node × Text) :=
  match rules with
  | [] => .ok ([], pending)
  | r :: rs =>
    let start := src.index r.pos
    let next := match rs with | [] => stop | r' :: _ => src.index r'.pos
    let text := src.slice start next
    match r with
    | .trivia _ => src.read rs (pending ++ text) stop
    | .unfinished p => .error ⟨.unfinishedRule, p⟩
    | .qualified _ prelude content =>
      match prelude.findSome? Component.error? with
      | some (p, e) => .error ⟨.token e, p⟩
      | none => (src.read rs [] stop).map fun rest =>
        (.block ⟨pending, some text, writeAll prelude, writeAll content, selectorsOf prelude⟩ :: rest.1,
          rest.2)
    | .atRule _ keyword prelude content =>
      let name := Text.asciiLower keyword
      match content with
      | some cs =>
        if name ∈ groupNames then
          let inner := Rule.ofComponents cs
          let contentStop := if Text.endsWith text ['\x7d'] then next - 1 else next
          let contentStart := match inner with | [] => contentStop | r' :: _ => src.index r'.pos
          match src.read inner [] contentStop with
          | .error e => .error e
          | .ok (children, trailing) => (src.read rs [] stop).map fun rest =>
            (.group ⟨pending, name, src.slice start (contentStart - 1),
              Selector.normalize (writeAll prelude)⟩ children trailing :: rest.1, rest.2)
        else (src.read rs [] stop).map fun rest =>
          (.statement (statementOf pending text name prelude) :: rest.1, rest.2)
      | none => (src.read rs [] stop).map fun rest =>
        (.statement (statementOf pending text name prelude) :: rest.1, rest.2)
termination_by Rule.sizeAll rules
decreasing_by
  all_goals simp only [Rule.sizeAll, Rule.size, Rule.contentSize,
    Option.map_some, Option.map_none, Option.getD_some, Option.getD_none]
  all_goals try omega
  have := Rule.sizeAll_ofComponents cs
  omega

/-- The tree of a sheet. -/
def Sheet.parse (css : Text) : Except ParseError Sheet :=
  let src := LinedText.ofText (normalizeNewlines css)
  match components src.text with
  | .error t => .error (.tooLong t)
  | .ok cs => match src.read (Rule.ofComponents cs) [] src.text.length with
    | .error e => .error (.illFormed e)
    | .ok r => .ok ⟨r.1, r.2⟩

end StylePrune.Css
