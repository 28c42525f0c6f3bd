import StylePrune.Css.Prune
import StylePrune.Json.Reader

/-!
The ledger: for every file, which of its selectors some page was seen to use. It is kept as a
document of objects whose innermost values are the two words for a status.
-/

set_option autoImplicit false

namespace StylePrune

abbrev Ledger := Table Text Statuses

def Status.name : Status → Text
  | .used => "used"
  | .unused => "unused"

def Status.ofName? (s : Text) : Option Status :=
  if s = Status.used.name then some .used
  else if s = Status.unused.name then some .unused
  else none

@[simp] theorem Status.ofName?_name (s : Status) : Status.ofName? s.name = some s := by
  cases s <;> rfl

namespace Ledger

/-- Why a file holds no ledger, or none that can be read. -/
inductive Corruption where
  | unreadable | notObjects | unknownStatus
  /-- This is not told as a fault of the file. -/
  | tooDeep (t : Json.TooDeep)
  deriving DecidableEq, Repr

def Corruption.message : Corruption → Text
  | .unreadable => "Could not read ledger"
  | .notObjects => "Ledger is not an object of objects"
  | .unknownStatus => "Ledger contains an unknown status"
  | .tooDeep t => t.message

def toJson (l : Ledger) : Json :=
  .object (l.entries.map fun e =>
    (e.1, .object (e.2.entries.map fun s => (s.1, .string s.2.name))))

def statusOfJson? (v : Json) : Option Status := v.string?.bind Status.ofName?

def statusesOfJson? : List (Text × Json) → Option (List (Text × Status))
  | [] => some []
  | (s, v) :: fs => do
    let st ← statusOfJson? v
    let rest ← statusesOfJson? fs
    return (s, st) :: rest

def filesOfJson? : List (Text × Json) → Option (List (Text × List (Text × Json)))
  | [] => some []
  | (f, v) :: fs => do
    let inner ← v.fields?
    let rest ← filesOfJson? fs
    return (f, inner) :: rest

def entriesOfFields? : List (Text × List (Text × Json)) → Option (List (Text × Statuses))
  | [] => some []
  | (f, fields) :: fs => do
    let st ← statusesOfJson? fields
    let rest ← entriesOfFields? fs
    return (f, Table.ofList st) :: rest

/-- The shape of the whole document is looked at before any status. -/
def ofJson (v : Json) : Except Corruption Ledger :=
  match v.fields?.bind filesOfJson? with
  | none => .error .notObjects
  | some files => match entriesOfFields? files with
    | none => .error .unknownStatus
    | some es => .ok (Table.ofList es)

end Ledger
end StylePrune
