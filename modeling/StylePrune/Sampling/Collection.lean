import StylePrune.Css.Reader
import StylePrune.Html.Page
import StylePrune.Sampling.Loader
import StylePrune.Sampling.Record

/-!
Every selector that a page's stylesheets declare, the imported ones first. A sheet is loaded once,
whoever refers to it.
-/

set_option autoImplicit false

namespace StylePrune.Sampling

/-- Media that hold both outside and inside. -/
def bothMedia (outer inner : Option Text) : Option Text :=
  match outer, inner with
  | some (a :: o), some (b :: i) => some ((a :: o) ++ " and " ++ (b :: i))
  | some (a :: o), _ => some (a :: o)
  | _, inner => inner

/-- What was collected so far. -/
structure Collection where
  visited : List Text
  found : List Sighting
  warnings : List Text
  fetched : List Text
  deriving DecidableEq, Repr

def Collection.empty : Collection := ⟨[], [], [], []⟩

/-- Sheets that one import leads to after another. -/
def importDepth : Nat := 480

/-- What a sheet says of an import: its target as the sheet names it, and its media. -/
def importsOf (sheet : Css.Sheet) : List (Text × Option Text) :=
  sheet.statements.filterMap fun (s : Css.Statement) =>
    if s.name = "import" then
      match s.importUrl with
      | some (c :: url) => some (c :: url, s.importMedia)
      | _ => none
    else none

/-- Follows references of the sheet at `base` in order. -/
def followAll (follow : Collection → Text → Option Text → Except ScanError Collection) (s : Sources)
    (base media : Option Text) : List (Text × Option Text) → Collection → Except ScanError Collection
  | [], c => .ok c
  | i :: is, c => match resolve s.pageUrl i.1 base with
    | .error e => .error (.reference e)
    | .ok url => match follow c url (bothMedia media i.2) with
      | .error e => .error e
      | .ok c => followAll follow s base media is c

/-- A sheet's imports, then its own selectors. -/
def gatherSheet (follow : Collection → Text → Option Text → Except ScanError Collection) (s : Sources)
    (css file : Text) (base media : Option Text) (c : Collection) : Except ScanError Collection :=
  match Css.Sheet.parse css with
  | .error (.tooLong t) => .error (.tooLong t)
  | .error (.illFormed e) =>
    .ok { c with warnings := c.warnings ++ ["Could not parse " ++ file ++ ": " ++ e.message] }
  | .ok sheet => match followAll follow s base media (importsOf sheet) c with
    | .error e => .error e
    | .ok c => .ok { c with found := c.found ++ sheet.uses.map fun u => ⟨file, u.1, bothMedia media u.2⟩ }

/-- The sheet at a locator, unless it was there before. -/
def gatherFrom (s : Sources) : (depth : Nat) → Collection → Text → Option Text → Except ScanError Collection
  | depth, c, url, media =>
    if url ∈ c.visited then .ok c
    else match depth with
    | 0 => .error .tooDeep
    | depth + 1 => match s.load url with
      | .error e => .error e
      | .ok l =>
        let c := { c with
          visited := url :: c.visited
          warnings := c.warnings ++ (l.warning? url).toList
          fetched := c.fetched ++ if l.fetched then [url] else [] }
        match l.css? with
        | none => .ok c
        | some css => match SourceKey.ofReference url with
          | .error e => .error (.reference e)
          | .ok file => gatherSheet (gatherFrom s depth) s css file (some url) media c

/-- The locators that the page's links mean, each once. -/
def linkedUrls (s : Sources) (p : Html.Page) : Except Url.Error (List Text) :=
  go [] p.stylesheetLinks
where
  go (urls : List Text) : List Text → Except Url.Error (List Text)
    | [] => .ok urls
    | href :: hrefs => match resolve s.pageUrl href none with
      | .error e => .error e
      | .ok url => go (if url ∈ urls then urls else urls ++ [url]) hrefs

def gatherLinks (s : Sources) : List Text → Collection → Except ScanError Collection
  | [], c => .ok c
  | url :: urls, c => match gatherFrom s importDepth c url none with
    | .error e => .error e
    | .ok c => gatherLinks s urls c

def gatherStyles (s : Sources) : List Text → Collection → Except ScanError Collection
  | [], c => .ok c
  | css :: rest, c => match gatherSheet (gatherFrom s importDepth) s css SourceKey.inline none none c with
    | .error e => .error e
    | .ok c => gatherStyles s rest c

/-- Linked sheets, then the styles in the page. -/
def gather (s : Sources) (p : Html.Page) : Except ScanError Collection :=
  match linkedUrls s p with
  | .error e => .error (.reference e)
  | .ok urls => match gatherLinks s urls .empty with
    | .error e => .error e
    | .ok c => gatherStyles s p.styles c

end StylePrune.Sampling
