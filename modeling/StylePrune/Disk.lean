import StylePrune.Path
import StylePrune.Table
import StylePrune.Text.Utf8

/-!
A file system as a value: directories, files and symbolic links under absolute names. Two ways lead
from a path to a place: following it as an open file would be found, which fails where something is
missing, and resolving it as far as it goes, which never fails on what is missing.
-/

set_option autoImplicit false

namespace StylePrune

/-- Names from the root. -/
abbrev Place := List Text

inductive Entry where
  | file (content : Bytes) (modified : Int)
  | link (target : Text)
  | directory
  deriving DecidableEq, Repr

structure Disk where
  entries : Table Place Entry

namespace Disk

/-- Why an operation on files fails. -/
inductive Errno where
  | noEntry | isDirectory | notDirectory | exists_ | tooManyLinks | nameTooLong | notEmpty | refused
  deriving DecidableEq, Repr

def Errno.message : Errno → Text
  | .noEntry => "No such file or directory"
  | .isDirectory => "Is a directory"
  | .notDirectory => "Not a directory"
  | .exists_ => "File exists"
  | .tooManyLinks => "Too many levels of symbolic links"
  | .nameTooLong => "File name too long"
  | .notEmpty => "Directory not empty"
  | .refused => "Input/output error"

def empty : Disk := ⟨Table.empty⟩

/-- What stands at a place; the root is always a directory. -/
def entry? (d : Disk) (p : Place) : Option Entry :=
  if p = [] then some .directory else d.entries.get? p

def set (d : Disk) (p : Place) (e : Entry) : Disk := ⟨d.entries.insert p e⟩

def erase (d : Disk) (p : Place) : Disk := ⟨d.entries.erase p⟩

/-- Is a place `p` or below it? -/
def isBelow (p q : Place) : Bool := p.isPrefixOf q

def eraseTree (d : Disk) (p : Place) : Disk := ⟨d.entries.filter fun q _ => !isBelow p q⟩

/-- Regular files below a place, by their names from there. -/
def filesBelow (d : Disk) (p : Place) : List (Place × Bytes) :=
  d.entries.entries.filterMap fun e => match e.2 with
    | .file content _ => if isBelow p e.1 then some (e.1.drop p.length, content) else none
    | _ => none

def maxName : Nat := 255

/-- Links that one path may lead through. -/
def maxLinks : Nat := 40

/-- Follows names from `done`. Everything on the way must be a directory, and the end must exist. -/
def follow (d : Disk) (links : Nat) (done : Place) (rest : List Text) : Except Errno Place :=
  match rest with
  | [] => .ok done
  | n :: rest =>
    if d.entry? done ≠ some .directory then .error .notDirectory
    else if n = [] ∨ n = "." then d.follow links done rest
    else if n = ".." then d.follow links done.dropLast rest
    else if maxName < Text.utf8Size n then .error .nameTooLong
    else match d.entry? (done ++ [n]) with
    | none => .error .noEntry
    | some (.link target) => match links with
      | 0 => .error .tooManyLinks
      | links + 1 =>
        d.follow links (if Path.isAbsolute target then [] else done) (Text.splitOn '/' target ++ rest)
    | some _ => d.follow links (done ++ [n]) rest
termination_by (links, rest.length)

def find (d : Disk) (path : Text) : Except Errno Place := d.follow maxLinks [] (Text.splitOn '/' path)

def entryAt? (d : Disk) (path : Text) : Option Entry :=
  match d.find path with
  | .ok p => d.entry? p
  | .error _ => none

def exists? (d : Disk) (path : Text) : Bool := (d.entryAt? path).isSome

def isDirectory (d : Disk) (path : Text) : Bool := d.entryAt? path == some .directory

def isFile (d : Disk) (path : Text) : Bool :=
  match d.entryAt? path with
  | some (.file ..) => true
  | _ => false

/-- The content of a file and when it was last written. -/
def open? (d : Disk) (path : Text) : Except Errno (Bytes × Int) :=
  match d.find path with
  | .error e => .error e
  | .ok p => match d.entry? p with
    | some (.file content modified) => .ok (content, modified)
    | some .directory => .error .isDirectory
    | _ => .error .noEntry

/-- A path seen from a directory; an empty one leads nowhere. -/
def openFrom (d : Disk) (cwd path : Text) : Except Errno (Bytes × Int) :=
  if path = [] then .error .noEntry else d.open? (Path.join cwd path)

def isDirectoryFrom (d : Disk) (cwd path : Text) : Bool :=
  path ≠ [] && d.isDirectory (Path.join cwd path)

/-- What makes a name one that no file can have. -/
inductive BadName where
  | unspellable
  | nulByte
  deriving DecidableEq, Repr

def BadName.message : BadName → Text
  | .unspellable => "surrogates not allowed"
  | .nulByte => "embedded null byte"

/-- Names are bytes: the halves from 0xDC80 to 0xDCFF stand for those that are not UTF-8. -/
def isNameChar : CodePoint → Bool
  | .char _ => true
  | .surrogate n => 0x480 ≤ n.val && n.val < 0x500

def badName? (name : Text) : Option BadName :=
  if !name.all isNameChar then some .unspellable
  else if name.contains '\x00' then some .nulByte
  else none

/-- Joins what is left of a path to a place. What is left after two slashes stands for itself. -/
def rejoin (done : Place) : List Text → Place
  | [] :: n :: rest => n :: rest
  | rest => done ++ rest

/-- Resolves names from `done` as far as links lead. Of a link that leads back to itself the path
is left as it is; `false` says that this happened. `active` are the links that are being resolved. -/
def resolveFrom (d : Disk) (depth : Nat) (active : List Place) (done : Place) (rest : List Text) :
    Except BadName (Place × Bool) :=
  match rest with
  | [] => .ok (done, true)
  | n :: rest =>
    if n = [] ∨ n = "." then d.resolveFrom depth active done rest
    else if n = ".." then d.resolveFrom depth active done.dropLast rest
    else match badName? n with
    | some b => .error b
    | none => match d.entry? (done ++ [n]) with
    | some (.link target) =>
      if done ++ [n] ∈ active then .ok (rejoin (done ++ [n]) rest, false)
      else match depth with
      | 0 => .ok (rejoin (done ++ [n]) rest, false)
      | depth + 1 =>
        match d.resolveFrom depth ((done ++ [n]) :: active) (if Path.isAbsolute target then [] else done)
            (Text.splitOn '/' target) with
        | .error e => .error e
        | .ok (p, true) => d.resolveFrom (depth + 1) active p rest
        | .ok (p, false) => .ok (rejoin p rest, false)
    | _ => d.resolveFrom depth active (done ++ [n]) rest
termination_by (depth, rest.length)

/-- The place that a path means once every link in it is resolved. Nothing need exist there. -/
def resolve (d : Disk) (path : Text) : Except BadName Place :=
  (d.resolveFrom (d.entries.entries.length) [] [] (Text.splitOn '/' path)).map fun r =>
    Path.follow true [] r.1

def pathOf (p : Place) : Text := '/' :: Text.joinWith ['/'] p

/-- Does a path, its links resolved, mean `root` or something below it? -/
def leadsBelow (d : Disk) (path root : Text) : Except BadName Bool := do
  let root ← d.resolve root
  let place ← d.resolve path
  return isBelow root place

/-- Changes to a disk, which may fail half-way. -/
abbrev Action (ε α : Type) := ExceptT ε (StateM Disk) α

namespace Action

variable {ε ε' α : Type}

/-- The same with another kind of error. -/
def mapError (f : ε → ε') (a : Action ε α) : Action ε' α := fun d =>
  let r := a d
  (match r.1 with | .ok v => .ok v | .error e => .error (f e), r.2)

def attempt (a : Action ε α) : Action ε' (Except ε α) := fun d =>
  let r := a d
  (.ok r.1, r.2)

/-- Asks without changing anything. -/
def ask (f : Disk → Except ε α) : Action ε α := fun d => (f d, d)

end Action

/-- Is this a name that something can have in a directory? -/
def isOwnName (name : Text) : Bool := name ≠ [] && name ≠ "." && name ≠ ".."

/-- The directory in which a path creates or replaces something, and the name there. -/
def target (d : Disk) (path : Text) : Except Errno Place :=
  let s := Path.split path
  match d.find s.1 with
  | .error e => .error e
  | .ok dir =>
    if d.entry? dir ≠ some .directory then .error .notDirectory
    else if !isOwnName s.2 then .error .isDirectory
    else if maxName < Text.utf8Size s.2 then .error .nameTooLong
    else .ok (dir ++ [s.2])

def mkdir (path : Text) : Action Errno Unit := fun d =>
  match d.target path with
  | .error e => (.error e, d)
  | .ok p => if (d.entry? p).isSome then (.error .exists_, d) else (.ok (), d.set p .directory)

/-- Makes a directory, and before it those that lead to it. One that is there already will do. -/
def makeDirectories (p : Place) : Action Errno Unit := fun d =>
  if h : p = [] then (.ok (), d)
  else
    let parent := p.dropLast
    have : parent.length < p.length := by
      have := List.length_pos_iff.2 h
      simp only [parent, List.length_dropLast]
      omega
    let (before, d) : Except Errno Unit × Disk :=
      if d.exists? (pathOf parent) then (.ok (), d)
      else match makeDirectories parent d with
        | (.error .exists_, d) => (.ok (), d)
        | r => r
    match before with
    | .error e => (.error e, d)
    | .ok () => match mkdir (pathOf p) d with
      | (.error e, d) => if d.isDirectory (pathOf p) then (.ok (), d) else (.error e, d)
      | r => r
termination_by p.length

/-- Why a text does not get to its file. -/
inductive WriteError where
  | unspellable
  | errno (e : Errno)
  deriving DecidableEq, Repr

/-- Puts a complete file at a path in one step: whatever stood there, the old or the new text is
there after. The directories on the way are made first and stay. -/
def replaceFile (path text : Text) (refuse : Bool) : Action WriteError Unit := do
  let directory := (Path.names (Path.normalize path)).dropLast
  (makeDirectories directory).mapError .errno
  fun d => match d.find (pathOf directory), Utf8.encode? text with
    | .error e, _ => (.error (.errno e), d)
    | .ok _, none => (.error .unspellable, d)
    | .ok _, some content =>
      if refuse then (.error (.errno .refused), d)
      else match d.target path with
      | .error e => (.error (.errno e), d)
      | .ok p => match d.entry? p with
        | some .directory => (.error (.errno .isDirectory), d)
        | _ => (.ok (), d.set p (.file content 0))

/-- Where writing to a path ends up: a link is followed, even one to a file that is not there yet. -/
def writeTarget (d : Disk) (links : Nat) (path : Text) : Except Errno Place :=
  match d.target path with
  | .error e => .error e
  | .ok p => match d.entry? p with
    | some .directory => .error .isDirectory
    | some (.link t) => match links with
      | 0 => .error .tooManyLinks
      | links + 1 => d.writeTarget links (Path.join (pathOf p.dropLast) t)
    | _ => .ok p

/-- Writes a file in place. -/
def writeFile (path : Text) (content : Bytes) (modified : Int) : Action Errno Unit := fun d =>
  match d.writeTarget maxLinks path with
  | .error e => (.error e, d)
  | .ok p => (.ok (), d.set p (.file content modified))

/-- Makes sure that a file can be appended to. -/
def touchFile (path : Text) : Action Errno Unit := fun d =>
  match d.writeTarget maxLinks path with
  | .error e => (.error e, d)
  | .ok p => (.ok (), if (d.entry? p).isSome then d else d.set p (.file [] 0))

/-- Copies a file's content to a path, or under its own name into the directory that stands there. -/
def copyFile (source path : Text) : Action Errno Unit := fun d =>
  match d.open? source with
  | .error e => (.error e, d)
  | .ok f => writeFile (if d.isDirectory path then Path.join path (Path.split source).2 else path) f.1 f.2 d

end Disk
end StylePrune
