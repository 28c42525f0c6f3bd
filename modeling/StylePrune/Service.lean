import StylePrune.Ledger.Merge
import StylePrune.Ledger.Store
import StylePrune.Generation

/-!
The two things that a report can ask for: to be kept in the ledger, and beyond that to have the
stylesheets written anew from it. The ledger is saved before generation starts, and generation that
fails does not touch it.
-/

set_option autoImplicit false

namespace StylePrune.Service

open Disk (Action)

/-- The ledger's file, and where generation reads and writes. -/
structure Deployment where
  ledgerFile : Text
  generation : Generation.Setup
  deriving DecidableEq, Repr

inductive Error where
  | store (e : Ledger.StoreError)
  | merge (e : Ledger.MergeError)
  | run (e : Generation.RunError)
  deriving DecidableEq, Repr

def Error.message : Error → Text
  | .store e => e.message
  | .merge e => e.message
  | .run e => e.message

/-- The files that a report touched, and what could not be read. -/
structure Merged where
  files : List Text
  errors : List Text
  deriving DecidableEq, Repr

/-- Merges a report into the ledger on disk, and gives back what is there now. -/
def commit (p : Deployment) (w : Faults) (r : Report) : Action Error (Merged × Ledger) :=
  Ledger.transaction .store p.ledgerFile (w.unwritable .ledger) fun before d =>
    let m := Ledger.merge p.generation.site w.locked d before r
    match m.2 with
    | some e => .error (.merge e)
    | none => .ok (m.1.ledger, ⟨m.1.files, m.1.errors⟩, m.1.ledger)

def save (p : Deployment) (w : Faults) (r : Report) : Action Error Merged := do
  let m ← commit p w r
  return m.1

/-- Merges, then generates from the ledger as it was saved. -/
def generate (p : Deployment) (w : Faults) (moment : Text) (r : Report) :
    Action Error (Merged × Generation.Result) := do
  let m ← commit p w r
  let written ← (Generation.run p.generation w moment m.2).mapError .run
  return (m.1, written)

end StylePrune.Service
