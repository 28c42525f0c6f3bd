import StylePrune.Disk
import StylePrune.Json.Reader
import StylePrune.Json.Writer
import StylePrune.Ledger

/-!
The ledger on disk. A change reads it, works on what was read and replaces the file, all under the
lock beside it; a change that fails leaves the file as it was.
-/

set_option autoImplicit false

namespace StylePrune.Ledger

open Disk (Action Errno)

inductive StoreError where
  | corrupt (c : Corruption)
  | unspellable
  | notSaved (e : Errno)
  | notLocked (e : Errno)
  deriving DecidableEq, Repr

def StoreError.message : StoreError → Text
  | .corrupt c => c.message
  | .unspellable => Disk.BadName.unspellable.message
  | .notSaved _ => "Could not save ledger"
  | .notLocked e => e.message

/-- What the file's bytes say. -/
def ofBytes (bs : Bytes) : Except Corruption Ledger :=
  match (Utf8.decode? bs).map Json.parse with
  | some (.error (.tooDeep t)) => .error (.tooDeep t)
  | none | some (.error _) => .error .unreadable
  | some (.ok v) => ofJson v

/-- A file that is not there holds the empty ledger. -/
def load (path : Text) (d : Disk) : Except Corruption Ledger :=
  if d.exists? path then
    match d.open? path with
    | .error _ => .error .unreadable
    | .ok f => ofBytes f.1
  else .ok Table.empty

/-- Replaces the file by a document; `refuse` makes the last step of the write fail. -/
def saveDocument (path : Text) (v : Json) (refuse : Bool) : Action StoreError Unit :=
  (Disk.replaceFile path v.render refuse).mapError fun
    | .unspellable => .unspellable
    | .errno e => .notSaved e

def save (path : Text) (l : Ledger) (refuse : Bool) : Action StoreError Unit :=
  saveDocument path l.toJson refuse

def lockPath (path : Text) : Text := path ++ ".lock"

/-- Takes the lock: its file is made if it is missing and is never removed. -/
def lock (path : Text) : Action StoreError Unit := do
  (Disk.makeDirectories (Path.names (Path.normalize (lockPath path))).dropLast).mapError .notLocked
  (Disk.touchFile (lockPath path)).mapError .notLocked

/-- Changes the ledger by `change`, which may look at the disk, and saves what comes of it. -/
def transaction {ε α : Type} (wrap : StoreError → ε) (path : Text) (refuse : Bool)
    (change : Ledger → Disk → Except ε (Ledger × α)) : Action ε α := do
  (lock path).mapError wrap
  let before ← (Action.ask (load path)).mapError (wrap ∘ .corrupt)
  let r ← Action.ask (change before)
  (save path r.1 refuse).mapError wrap
  return r.2

end StylePrune.Ledger
