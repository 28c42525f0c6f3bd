import StylePrune.Css.Sheet
import StylePrune.Json
import StylePrune.Table
import StylePrune.Text.Blank

/-!
What a page reports: for each stylesheet the selectors that are not used on it, with their media.
-/

set_option autoImplicit false

namespace StylePrune

abbrev Report := Table Text (List Css.Use)

namespace Report

/-- Why a body is no report. -/
inductive Fault where
  | notAnObject
  | blankFile
  | notAList (file : Text)
  | invalidEntry (file : Text)
  | invalidMedia (file : Text)
  deriving DecidableEq, Repr

def Fault.message : Fault → Text
  | .notAnObject => "Invalid JSON data"
  | .blankFile => "Invalid source file key"
  | .notAList file => "Selectors for " ++ file ++ " must be a list"
  | .invalidEntry file => "Invalid selector entry for " ++ file
  | .invalidMedia file => "Invalid media value for " ++ file

/-- An entry of a file: an object with a selector and, if at all, media that are text. -/
def useOfJson (file : Text) (entry : Json) : Except Fault Css.Use :=
  match entry.fields? with
  | none => .error (.invalidEntry file)
  | some fs => match (Json.field? fs "selector").bind Json.string? with
    | none => .error (.invalidEntry file)
    | some s => match Json.field? fs "media" with
      | none | some .null => .ok (s, none)
      | some v => match v.string? with
        | some m => .ok (s, some m)
        | none => .error (.invalidMedia file)

def usesOfJson (file : Text) : List Json → Except Fault (List Css.Use)
  | [] => .ok []
  | e :: es => match useOfJson file e with
    | .error f => .error f
    | .ok u => (usesOfJson file es).map (u :: ·)

/-- The files of a report in order; the first fault counts. -/
def filesOfJson : List (Text × Json) → Except Fault (List (Text × List Css.Use))
  | [] => .ok []
  | (file, v) :: fs =>
    if Text.strip file = [] then .error .blankFile
    else match v.array? with
    | none => .error (.notAList file)
    | some es => match usesOfJson file es with
      | .error f => .error f
      | .ok us => (filesOfJson fs).map ((file, us) :: ·)

/-- A report names at least one file. -/
def ofJson (v : Json) : Except Fault Report :=
  match v.fields? with
  | none | some [] => .error .notAnObject
  | some fs => (filesOfJson fs).map Table.ofList

def useToJson (u : Css.Use) : Json :=
  .object [("selector", .string u.1), ("media", (u.2.map Json.string).getD .null)]

/-- A report as it is sent. -/
def toJson (r : Report) : Json := .object (r.entries.map fun e => (e.1, .array (e.2.map useToJson)))

end Report
end StylePrune
