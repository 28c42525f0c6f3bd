import StylePrune.Text.Basic

/-!
Paths as text: joining them, taking dots out, and going from one to another.
-/

set_option autoImplicit false

namespace StylePrune.Path

def isAbsolute (p : Text) : Bool := p.head? == some (.char '/')

/-- An absolute second path stands for itself. -/
def join (a b : Text) : Text :=
  if isAbsolute b then b
  else if a = [] ∨ a.getLast? = some (.char '/') then a ++ b
  else a ++ .char '/' :: b

/-- The names along a path. -/
def names (p : Text) : List Text := (Text.splitOn '/' p).filter (· ≠ [])

/-- Follows names from `done`, the ones reached so far in reverse. Above the root there is nothing;
above a relative start there are more parents. -/
def follow (absolute : Bool) (done : List Text) : List Text → List Text
  | [] => done.reverse
  | n :: ns =>
    if n = [] ∨ n = "." then follow absolute done ns
    else if n = ".." then
      if done.head? = some ".." ∨ (done = [] ∧ !absolute) then follow absolute (n :: done) ns
      else follow absolute done.tail ns
    else follow absolute (n :: done) ns

/-- The same path without dots and doubled slashes. Exactly two slashes at the start stay. -/
def normalize (p : Text) : Text :=
  let slashes := (p.takeWhile (· = .char '/')).length
  let start : Text := if slashes = 2 then ['/', '/'] else if slashes = 0 then [] else ['/']
  let r := start ++ Text.joinWith ['/'] (follow (isAbsolute p) [] (Text.splitOn '/' p))
  if r = [] then ['.'] else r

def absolute (cwd p : Text) : Text := normalize (join cwd p)

def commonLength : List Text → List Text → Nat
  | a :: as, b :: bs => if a = b then commonLength as bs + 1 else 0
  | _, _ => 0

/-- The way from a directory to a path, both absolute. -/
def relative (dir p : Text) : Text :=
  let ds := names (normalize dir)
  let ps := names (normalize p)
  let k := commonLength ds ps
  let way : List Text := List.replicate (ds.length - k) (Text.ofString "..") ++ ps.drop k
  if way = [] then ['.'] else Text.joinWith ['/'] way

/-- All but the last name, and the last name. -/
def split (p : Text) : Text × Text :=
  match Text.cutAtLast? ['/'] p with
  | some (dir, name) => (if dir.all (· = .char '/') then dir ++ [.char '/'] else Text.trimRight (· = .char '/') dir, name)
  | none => ([], p)

end StylePrune.Path
