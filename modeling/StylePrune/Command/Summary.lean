import StylePrune.Sampling.Sampler
import StylePrune.Text.Quoted

/-!
What a scan says to the person who ran it.
-/

set_option autoImplicit false

namespace StylePrune.Command

open Sampling (Scan)

/-- One line for a selector; two more blanks and its media follow it, if it has any. -/
def useLine (u : Css.Use) : Text :=
  "  " ++ u.1 ++ match u.2 with
    | some (c :: m) => "  @media " ++ c :: m
    | _ => []

def fileLines (file : Text) (uses : List Css.Use) : List Text :=
  (file ++ ": " ++ Text.ofNat uses.length ++ " unused") :: uses.map useLine

/-- Files in the order of their names, and a line that counts. -/
def summary (s : Scan) : List Text :=
  let files := s.report.entries
  (files.mergeSort fun a b => !decide (b.1 < a.1)).flatMap (fun f => fileLines f.1 f.2) ++
    [Text.ofNat s.countUnused ++ " unused selectors in " ++ Text.ofNat files.length ++ " stylesheets"]

def warnings (s : Scan) : List Text := s.warnings.map fun w => "warning: " ++ w

mutual
/-- A value inside another one as a line shows it. -/
def shownInside : Json → Text
  | .null => "None"
  | .bool b => if b then "True" else "False"
  | .int n => Text.ofInt n
  | .float s => if s = "NaN" then "nan" else Text.replaceAll "Infinity" "inf" s
  | .string s => Text.quoted s
  | .array [] => "[]"
  | .array (v :: vs) => .char '[' :: shownInside v ++ shownItems vs ++ [.char ']']
  | .object [] => "\x7b\x7d"
  | .object ((k, v) :: fs) =>
    .char '\x7b' :: Text.quoted k ++ ": " ++ shownInside v ++ shownFields fs ++ [CodePoint.char '\x7d']

/-- Items that follow another. -/
def shownItems : List Json → Text
  | [] => []
  | v :: vs => ", " ++ shownInside v ++ shownItems vs

/-- Fields that follow another. -/
def shownFields : List (Text × Json) → Text
  | [] => []
  | (k, v) :: fs => ", " ++ Text.quoted k ++ ": " ++ shownInside v ++ shownFields fs
end

/-- A value as a line shows it; a string stands for itself. -/
def shown : Json → Text
  | .string s => s
  | v => shownInside v

/-- What an endpoint says of a report that it took. An answer must be an object. -/
def answerLine? (answer : Json) : Option Text :=
  answer.fields?.map fun fs => ((Json.field? fs "message").map shown).getD "Report sent"

end StylePrune.Command
