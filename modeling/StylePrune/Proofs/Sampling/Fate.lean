import StylePrune.Sampling.Collection

/-!
What comes of a locator on its own, whoever refers to it: a sheet, a warning, or the end of the scan. Collecting goes by
this alone; it adds the order in which sheets are met and the depth to which they are followed.
-/

set_option autoImplicit false

namespace StylePrune.Sampling

inductive Fate where
  | fatal (e : ScanError)
  | failed (warning : Text)
  | read (file : Text) (sheet : Css.Sheet)

namespace Fate

/-- What comes of the text of a file. -/
def ofText (file css : Text) : Fate :=
  match Css.Sheet.parse css with
  | .error (.tooLong t) => .fatal (.tooLong t)
  | .error (.illFormed e) => .failed ("Could not parse " ++ file ++ ": " ++ e.message)
  | .ok sheet => .read file sheet

def ofLoad (url : Text) (l : Load) : Fate :=
  match l.outcome with
  | .unreadable => .failed ("Stylesheet skipped, not readable: " ++ url)
  | .unreachable => .failed ("Stylesheet skipped, fetch failed: " ++ url)
  | .css css => match SourceKey.ofReference url with
    | .error e => .fatal (.reference e)
    | .ok file => .ofText file css

def warning? : Fate → Option Text
  | .failed w => some w
  | _ => none

/-- The sheet is read and declares the selector. -/
def Declares (f : Fate) (file selector : Text) : Prop :=
  ∃ sheet, f = .read file sheet ∧ selector ∈ sheet.uses.map Prod.fst

theorem warning?_eq_some {f : Fate} {w : Text} : f.warning? = some w ↔ f = .failed w := by
  cases f <;> simp [warning?]

end Fate

/-- What comes of a style in the page. -/
def styleFate (css : Text) : Fate := .ofText SourceKey.inline css

def Sources.fate (s : Sources) (url : Text) : Fate :=
  match s.load url with
  | .error e => .fatal e
  | .ok l => .ofLoad url l

namespace Collection

def enter (c : Collection) (url : Text) (fetched : Bool) : Collection :=
  { c with visited := url :: c.visited, fetched := c.fetched ++ if fetched then [url] else [] }

def warn (c : Collection) (w : Text) : Collection := { c with warnings := c.warnings ++ [w] }

def declare (c : Collection) (file : Text) (media : Option Text) (sheet : Css.Sheet) : Collection :=
  { c with found := c.found ++ sheet.uses.map fun u => ⟨file, u.1, bothMedia media u.2⟩ }

/-- The selector was found in the file. -/
def Has (c : Collection) (file selector : Text) : Prop := ∃ x ∈ c.found, x.file = file ∧ x.selector = selector

@[simp] theorem visited_enter (c : Collection) (url : Text) (fetched : Bool) :
    (c.enter url fetched).visited = url :: c.visited := rfl

@[simp] theorem warnings_enter (c : Collection) (url : Text) (fetched : Bool) :
    (c.enter url fetched).warnings = c.warnings := rfl

@[simp] theorem has_enter (c : Collection) (url : Text) (fetched : Bool) (file selector : Text) :
    (c.enter url fetched).Has file selector ↔ c.Has file selector := .rfl

@[simp] theorem visited_declare (c : Collection) (file : Text) (media : Option Text) (sheet : Css.Sheet) :
    (c.declare file media sheet).visited = c.visited := rfl

@[simp] theorem warnings_declare (c : Collection) (file : Text) (media : Option Text) (sheet : Css.Sheet) :
    (c.declare file media sheet).warnings = c.warnings := rfl

theorem has_declare {c : Collection} {f file selector : Text} {media : Option Text} {sheet : Css.Sheet} :
    (c.declare f media sheet).Has file selector ↔
      c.Has file selector ∨ f = file ∧ selector ∈ sheet.uses.map Prod.fst := by
  simp only [Has, declare, List.mem_append, or_and_right, exists_or]
  refine or_congr_right ⟨?_, ?_⟩
  · rintro ⟨x, hx, hf, hs⟩
    obtain ⟨u, hu, rfl⟩ := List.mem_map.1 hx
    exact ⟨hf, List.mem_map.2 ⟨u, hu, hs⟩⟩
  · rintro ⟨rfl, hs⟩
    obtain ⟨u, hu, rfl⟩ := List.mem_map.1 hs
    exact ⟨_, List.mem_map_of_mem hu, rfl, rfl⟩

end Collection

/-- How sheets are followed. -/
abbrev Follow := Collection → Text → Option Text → Except ScanError Collection

/-- A sheet of known fate is collected. -/
def collect (follow : Follow) (s : Sources) (base media : Option Text) (c : Collection) :
    Fate → Except ScanError Collection
  | .fatal e => .error e
  | .failed w => .ok (c.warn w)
  | .read file sheet => (followAll follow s base media (importsOf sheet) c).map (·.declare file media sheet)

theorem gatherSheet_eq {follow : Follow} {s : Sources} {css file : Text} {base media : Option Text} {c : Collection} :
    gatherSheet follow s css file base media c = collect follow s base media c (.ofText file css) := by
  rw [gatherSheet, Fate.ofText]
  cases Css.Sheet.parse css with
  | error e => cases e <;> rfl
  | ok sheet =>
    simp only [collect]
    cases followAll follow s base media (importsOf sheet) c <;> rfl

theorem gatherFrom_of_mem {s : Sources} {depth : Nat} {c : Collection} {url : Text} {media : Option Text}
    (hv : url ∈ c.visited) : gatherFrom s depth c url media = .ok c := by
  rw [gatherFrom.eq_def]
  exact if_pos hv

theorem gatherFrom_zero {s : Sources} {c : Collection} {url : Text} {media : Option Text} (hv : url ∉ c.visited) :
    gatherFrom s 0 c url media = .error .tooDeep := by
  rw [gatherFrom]
  exact if_neg hv

/-- A sheet that was not met yet is collected as its fate has it. -/
theorem gatherFrom_succ (s : Sources) (depth : Nat) (media : Option Text) {c : Collection} {url : Text} (hv : url ∉ c.visited) :
    ∃ fetched, gatherFrom s (depth + 1) c url media =
      collect (gatherFrom s depth) s (some url) media (c.enter url fetched) (s.fate url) := by
  rw [gatherFrom, if_neg hv, Sources.fate]
  cases hl : s.load url with
  | error e => exact ⟨false, rfl⟩
  | ok l =>
    refine ⟨l.fetched, ?_⟩
    obtain ⟨outcome, fetched⟩ := l
    cases outcome with
    | unreadable => rfl
    | unreachable => rfl
    | css css =>
      simp only [Load.css?, Load.warning?, Fate.ofLoad, Option.toList_none, List.append_nil]
      cases SourceKey.ofReference url with
      | error e => rfl
      | ok file => exact gatherSheet_eq

end StylePrune.Sampling
