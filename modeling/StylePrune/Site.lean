import StylePrune.Disk
import StylePrune.SourceKey

/-!
The stylesheets of a site as their authors wrote them. They are only ever read, and only from below
the site's root, wherever links lead.
-/

set_option autoImplicit false

namespace StylePrune

/-- A site's root directory, and how many bytes a stylesheet may have. -/
structure Site where
  root : Text
  maxSize : Nat
  deriving DecidableEq, Repr

/-- Ten mebibytes. -/
def Site.defaultMaxSize : Nat := 10 * 1024 * 1024

namespace Site

/-- Why one stylesheet cannot be used. -/
inductive Unavailable where
  | inline | outside | missing | tooLarge | unreadable
  deriving DecidableEq, Repr

def Unavailable.message (file : Text) : Unavailable → Text
  | .inline => "Inline styles have no backing file"
  | .outside => "Path outside document root: " ++ file
  | .missing => "File not found or unavailable: " ++ file
  | .tooLarge => "File too large: " ++ file
  | .unreadable => "Could not read file: " ++ file

inductive Error where
  | badName (b : Disk.BadName)
  | unavailable (u : Unavailable)
  deriving DecidableEq, Repr

/-- The place of a file of the site, every link resolved. -/
def locate (s : Site) (d : Disk) (file : Text) : Except Error Place :=
  if file = SourceKey.inline then .error (.unavailable .inline)
  else match d.resolve s.root with
  | .error b => .error (.badName b)
  | .ok root => match d.resolve (Path.join (Disk.pathOf root) file) with
    | .error b => .error (.badName b)
    | .ok place =>
      if !Disk.isBelow root place then .error (.unavailable .outside)
      else if !d.isFile (Disk.pathOf place) then .error (.unavailable .missing)
      else .ok place

/-- A stylesheet's text and its size in bytes. A mark at its start is dropped, and what is not UTF-8
is replaced. `locked` are the files that cannot be opened. -/
def read (s : Site) (locked : Text → Bool) (d : Disk) (file : Text) : Except Error (Text × Nat) :=
  match locate s d file with
  | .error e => .error e
  | .ok place => match d.open? (Disk.pathOf place) with
    | .error _ => .error (.unavailable .unreadable)
    | .ok f =>
      if s.maxSize < f.1.length then .error (.unavailable .tooLarge)
      else if locked file then .error (.unavailable .unreadable)
      else .ok (Utf8.decodeLossy (Utf8.dropMark f.1), f.1.length)

end Site
end StylePrune
