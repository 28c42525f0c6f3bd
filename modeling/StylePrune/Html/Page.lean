import StylePrune.Html.Tag

/-!
A page as the list of its elements in order. Only start tags count, and the raw text of styles: how
elements nest is left open. A text is gone over twice: the second time goes on where the first one
stopped, and takes what is not complete as text.
-/

set_option autoImplicit false

namespace StylePrune.Html

/-- An element with its attributes as written, and the raw text of a style or a script. -/
structure Element where
  name : Text
  attributes : List (Text × Text)
  content : Text
  deriving DecidableEq, Repr

namespace Element

/-- Of an attribute that is repeated the last value counts. -/
def attribute? (e : Element) (name : Text) : Option Text :=
  (e.attributes.reverse.find? (·.1 = name)).map Prod.snd

/-- The words of an attribute that lists words. -/
def words (e : Element) (name : Text) : List Text := Text.words ((e.attribute? name).getD [])

def classes (e : Element) : List Text := e.words "class"

def id? (e : Element) : Option Text := e.attribute? "id"

end Element

/-- Elements whose content is not markup. -/
def isRaw (name : Text) : Bool := name = "script" || name = "style"

/-- The end tag of an element, in any letter case: what follows it. -/
def afterEndTag? (name s : Text) : Option Text := do
  let s ← Text.after? "</" s
  let s := s.dropWhile Text.isBlank
  let start := s.take name.length
  if Text.asciiLower start = name then
    Text.after? ['>'] ((s.drop name.length).dropWhile Text.isBlank)
  else none

/-- Raw text up to the end tag of its element, and what follows that. -/
def cutRaw? (name : Text) : Text → Option (Text × Text)
  | [] => none
  | c :: s => match afterEndTag? name (c :: s) with
    | some r => some ([], r)
    | none => (cutRaw? name s).map fun r => (c :: r.1, r.2)

/-- Text that is nothing but space collapses to one character, a line feed if it has one. -/
def collapseSpace (s : Text) : Text :=
  if s ≠ [] ∧ s.all fun (c : CodePoint) => c == ' ' || c == '\n' || c == '\t' || c == '\x0c' || c == '\r' then
    if s.contains '\n' then ['\n'] else [' ']
  else s

/-- What follows the first `mark`, after which blanks and a closing angle bracket may stand. -/
def afterMark? (mark : Text) : Text → Option Text
  | [] => none
  | c :: s => match (Text.after? mark (c :: s)).bind fun r => Text.after? ['>'] (r.dropWhile Text.isBlank) with
    | some r => some r
    | none => afterMark? mark s

/-- What follows two closing square brackets and an angle bracket, with blanks between them. -/
def afterBrackets? : Text → Option Text
  | [] => none
  | c :: s =>
    let here := do
      let r ← Text.after? [']'] (c :: s)
      let r ← Text.after? [']'] (r.dropWhile Text.isBlank)
      Text.after? ['>'] (r.dropWhile Text.isBlank)
    match here with
    | some r => some r
    | none => afterBrackets? s

def afterAngle? (s : Text) : Option Text := (Text.cutAt? ['>'] s).map Prod.snd

/-- Why a page cannot be read. -/
inductive Refusal where
  /-- A marked section of no known kind. -/
  | strangeSection
  | tooLong (t : Number.TooLong)
  deriving DecidableEq, Repr

/-- What stands at an opening angle bracket. -/
inductive Markup where
  | element (e : Element) (rest : Text)
  /-- A style or script without end: nothing follows it. -/
  | endless (e : Element)
  | passed (rest : Text)
  | incomplete
  /-- The whole page is refused. -/
  | refused (r : Refusal)
  deriving DecidableEq, Repr

/-- A start tag, with its content if it begins raw text. -/
def Markup.ofStartTag : Except Number.TooLong StartTag → Markup
  | .error t => .refused (.tooLong t)
  | .ok .incomplete => .incomplete
  | .ok (.plain rest) => .passed rest
  | .ok (.whole name attrs closed rest) =>
    if isRaw name && !closed then
      match cutRaw? name rest with
      | some r => .element ⟨name, attrs, collapseSpace r.1⟩ r.2
      | none => .endless ⟨name, attrs, []⟩
    else .element ⟨name, attrs, []⟩ rest

def Markup.ofRest? : Option Text → Markup
  | some rest => .passed rest
  | none => .incomplete

/-- Sections that end with two brackets. -/
def sectionNames : List Text := ["temp", "cdata", "ignore", "include", "rcdata"]

/-- Sections that end with one bracket. -/
def conditionNames : List Text := ["if", "else", "endif"]

/-- What follows an angle bracket, an exclamation mark and an opening bracket. -/
def Markup.ofSection (s : Text) : Markup :=
  match s with
  | [] => .incomplete
  | c :: _ =>
    if !c.isAlpha then .refused .strangeSection
    else
      let isName (c : CodePoint) : Bool := c.isAlphanum || c == '-' || c == '_' || c == '.'
      let name := Text.asciiLower (s.takeWhile isName)
      if (s.dropWhile isName).dropWhile Text.isBlank = [] then .incomplete
      else if sectionNames.contains name then .ofRest? (afterBrackets? s)
      else if conditionNames.contains name then .ofRest? (afterMark? [']'] s)
      else .refused .strangeSection

/-- What follows an opening angle bracket; it is not the end of the text. -/
def Markup.read (s : Text) : Markup :=
  match s with
  | '/' :: r => .ofRest? (afterAngle? r)
  | '?' :: r => .ofRest? (afterAngle? r)
  | '!' :: '-' :: '-' :: r => .ofRest? (afterMark? "--" r)
  | '!' :: '[' :: r => .ofSection r
  | '!' :: r => .ofRest? (afterAngle? r)
  | c :: _ => if c.isAlpha then .ofStartTag (StartTag.read s) else .passed s
  | [] => .incomplete

/-- Past an incomplete construct: after the next closing angle bracket, or at the next opening one. -/
def pastIncomplete (s : Text) : Text :=
  match afterAngle? s with
  | some r => r
  | none => if s.contains '<' then s.dropWhile (· ≠ .char '<') else s

/-- Is `s` a number that something other than a hexadecimal digit follows? -/
def isNumberReference (s : Text) : Bool :=
  let endsWell (r : Text) : Bool := r.head?.elim false fun c => !Text.isHexDigit c
  match s with
  | c :: r =>
    if c.isDigit then endsWell (s.dropWhile CodePoint.isDigit)
    else (c == 'x' || c == 'X') && r.head?.elim false Text.isHexDigit && endsWell (r.dropWhile Text.isHexDigit)
  | [] => false

/-- Elements found, and where the scan stopped before the end. -/
structure Found where
  elements : List Element
  left : Text
  deriving DecidableEq, Repr

def Found.add (e : Element) (f : Found) : Found := { f with elements := e :: f.elements }

/-- Goes over a text. A bad number reference ends this, and so does what is not complete, unless this
is the last time. -/
def scan (last : Bool) : Text → Except Refusal Found
  | [] => .ok ⟨[], []⟩
  | '<' :: s =>
    let go (r : Text) : Except Refusal Found :=
      if _h : r.length ≤ s.length then scan last r else .ok ⟨[], []⟩
    match Markup.read s with
    | .element e rest => (go rest).map (.add e)
    | .endless e => .ok ⟨[e], []⟩
    | .passed rest => go rest
    | .incomplete => if last then go (pastIncomplete s) else .ok ⟨[], '<' :: s⟩
    | .refused r => .error r
  | '&' :: '#' :: s =>
    if isNumberReference s then
      match Number.tooLong? (s.takeWhile CodePoint.isDigit).length with
      | some t => .error (.tooLong t)
      | none => scan last s
    else .ok ⟨[], if s.contains ';' then s else '&' :: '#' :: s⟩
  | _ :: s => scan last s
termination_by s => s.length

/-- A document as far as usage is concerned. -/
structure Page where
  elements : List Element
  deriving DecidableEq, Repr

def Page.parse (html : Text) : Except Refusal Page := do
  let first ← scan false html
  let second ← scan true first.left
  return ⟨first.elements ++ second.elements⟩

namespace Page

/-- References to stylesheets, in order. -/
def stylesheetLinks (p : Page) : List Text :=
  p.elements.filterMap fun (e : Element) =>
    if e.name = "link" ∧ ((e.words "rel").map Text.lower).contains "stylesheet" then e.attribute? "href" else none

/-- The texts of styles in the page. -/
def styles (p : Page) : List Text := (p.elements.filter fun (e : Element) => e.name = "style").map Element.content

end Page

end StylePrune.Html
