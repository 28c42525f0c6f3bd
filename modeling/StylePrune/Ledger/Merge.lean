import StylePrune.Css.Reader
import StylePrune.Ledger
import StylePrune.Site
import StylePrune.Report

/-!
Folding a page's report into the ledger. Used is final: what one page was seen to use no later report
makes unused again.
-/

set_option autoImplicit false

namespace StylePrune

/-- What is thought of a selector that no report has cleared: it may be unused if it may be deleted. -/
def Status.presumed (selector : Text) : Status := if Selector.isEligible selector then .unused else .used

namespace Statuses

/-- Enters a selector that is not there yet. -/
def enter (st : Statuses) (selector : Text) : Statuses :=
  if (st.get? selector).isSome then st else st.insert selector (.presumed selector)

def enterAll (st : Statuses) (selectors : List Text) : Statuses := selectors.foldl enter st

/-- What a page says that lists `unused`: every other selector of the file is used on it. -/
def witness (unused : List Text) (st : Statuses) : Statuses :=
  (st.enterAll unused).map fun s v =>
    if s ∈ unused ∧ v = .unused then .presumed s else .used

end Statuses

namespace Ledger

/-- A merge on its way: the ledger so far, the files touched and what could not be read. -/
structure Merge where
  ledger : Ledger
  files : List Text
  errors : List Text

def Merge.start (l : Ledger) : Merge := ⟨l, [], []⟩

/-- What no merge survives. -/
inductive MergeError where
  | reference (e : Url.Error)
  | badName (b : Disk.BadName)
  | tooLong (t : Number.TooLong)
  deriving DecidableEq, Repr

def MergeError.message : MergeError → Text
  | .reference e => e.message
  | .badName b => b.message
  | .tooLong t => t.message

def unreadable (file reason : Text) : Text :=
  "Could not initialize selectors for " ++ file ++ ": " ++ reason

/-- The entry of a file that is new to the ledger, from its stylesheet, and what went wrong. -/
def firstStatuses (s : Site) (locked : Text → Bool) (d : Disk) (file : Text) : Except MergeError (Statuses × List Text) :=
  if file = SourceKey.inline then .ok (Table.empty, [])
  else match Site.read s locked d file with
  | .error (.badName b) => .error (.badName b)
  | .error (.unavailable u) => .ok (Table.empty, [unreadable file (u.message file)])
  | .ok r => match Css.Sheet.parse r.1 with
    | .error (.tooLong t) => .error (.tooLong t)
    | .error (.illFormed e) => .ok (Table.empty, [unreadable file ("CSS parse error: " ++ e.message)])
    | .ok sheet => .ok (Statuses.enterAll Table.empty (sheet.uses.map Prod.fst), [])

/-- The selectors of a report's entry in normal form. -/
def reported (uses : List Css.Use) : List Text :=
  ((uses.map fun u => Selector.normalize u.1).filter (· ≠ [])).eraseDups

/-- What one file's entry of a report does. -/
def Merge.step (s : Site) (locked : Text → Bool) (d : Disk) (m : Merge) (reference : Text)
    (uses : List Css.Use) : Except MergeError Merge :=
  match SourceKey.ofReference reference with
  | .error e => .error (.reference e)
  | .ok file =>
    match (m.ledger.get? file).elim (firstStatuses s locked d file) fun st => .ok (st, []) with
    | .error e => .error e
    | .ok k => .ok {
        ledger := m.ledger.insert file (k.1.witness (reported uses))
        files := if file ∈ m.files then m.files else m.files ++ [file]
        errors := m.errors ++ k.2 }

/-- Entries in order. With an error comes what was merged before it. -/
def Merge.run (s : Site) (locked : Text → Bool) (d : Disk) (m : Merge) :
    List (Text × List Css.Use) → Merge × Option MergeError
  | [] => (m, none)
  | e :: es => match m.step s locked d e.1 e.2 with
    | .error x => (m, some x)
    | .ok m => m.run s locked d es

def merge (s : Site) (locked : Text → Bool) (d : Disk) (l : Ledger) (r : Report) : Merge × Option MergeError :=
  (Merge.start l).run s locked d r.entries

end Ledger
end StylePrune
