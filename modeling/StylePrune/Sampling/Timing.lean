import StylePrune.Text.Basic

/-!
When to scan: on a fixed interval, shortly after a relevant change of the page, and on demand. Scans
never overlap; a trigger that comes during a scan is dropped. The world in which scans run is a
parameter, and so is what a scan does, the operations it calls on its own scheduler included.
-/

set_option autoImplicit false

namespace StylePrune.Sampling

inductive TimerKind where
  | tick | debounce
  deriving DecidableEq, Repr

inductive TimerState where
  | pending | cancelled | fired
  deriving DecidableEq, Repr

structure Timer where
  kind : TimerKind
  state : TimerState
  deriving DecidableEq, Repr

/-- A change of the document: its kind and, for a changed attribute, which one. -/
structure Mutation where
  kind : Text
  target : Option Text
  deriving DecidableEq, Repr

/-- New or lost nodes, classes and ids can change what a selector matches. -/
def Mutation.isRelevant (m : Mutation) : Bool :=
  m.kind = "childList" ||
    (m.kind = "attributes" && (m.target = some "class" || m.target = some "id"))

namespace Timing

/-- `fire` is what the thread of a timer does when its time is up, whatever became of the timer. -/
inductive Op where
  | start | stop | trigger
  | notify (m : Mutation)
  | fire (timer : Nat)
  deriving DecidableEq, Repr

/-- What an operation gives back. -/
inductive Answer (ρ ε : Type) where
  | done
  | scanned (result : ρ)
  | dropped
  | scheduled (accepted : Bool)
  | noTimer
  | failed (e : ε)
  deriving DecidableEq, Repr

/-- One scan: the operations it calls on the way, and how it ends, given their answers. -/
structure Plan (ω ρ ε : Type) where
  during : List Op
  finish : List (Answer ρ ε) → ω → Except ε ρ × ω

/-- What scans do, by their number from 1, and what takes their results. -/
structure Setting (ω ρ ε : Type) where
  plan : Nat → ω → Plan ω ρ ε
  sink : Option (Nat → ρ → ω → Option ε × ω)

/-- `tick?` and `debounce?` are the timers that `stop` cancels, by order of creation. -/
structure State (ω ρ : Type) where
  world : ω
  running : Bool
  scanning : Bool
  tick? : Option Nat
  debounce? : Option Nat
  timers : List Timer
  begun : Nat
  last : Option ρ
  delivered : List ρ

variable {ω ρ ε : Type}

namespace State

def initial (w : ω) : State ω ρ := ⟨w, false, false, none, none, [], 0, none, []⟩

/-- Only a pending timer can be cancelled. -/
def cancel (s : State ω ρ) (i : Option Nat) : State ω ρ :=
  match i with
  | none => s
  | some i => { s with timers := s.timers.modify i fun t =>
      if t.state = .pending then { t with state := .cancelled } else t }

def addTimer (s : State ω ρ) (kind : TimerKind) : State ω ρ :=
  { s with timers := s.timers ++ [⟨kind, .pending⟩] }

def armTick (s : State ω ρ) : State ω ρ :=
  { s.addTimer .tick with tick? := some s.timers.length }

def start (s : State ω ρ) : State ω ρ :=
  if s.running then s else { s with running := true }.armTick

def stop (s : State ω ρ) : State ω ρ :=
  { (s.cancel s.tick?).cancel s.debounce? with running := false, tick? := none, debounce? := none }

/-- The latest relevant change replaces the timer of the one before. -/
def notify (s : State ω ρ) (m : Mutation) : State ω ρ × Bool :=
  if m.isRelevant && s.running then
    ({ (s.cancel s.debounce?).addTimer .debounce with debounce? := some s.timers.length }, true)
  else (s, false)

def markFired (s : State ω ρ) (i : Nat) : State ω ρ :=
  { s with timers := s.timers.modify i fun t => { t with state := .fired } }

/-- Clears the way for the next scan. -/
def release (s : State ω ρ) (w : ω) : State ω ρ := { s with world := w, scanning := false }

/-- Makes the result of scan `n` known. -/
def publish (set : Setting ω ρ ε) (n : Nat) (r : ρ) (s : State ω ρ) : State ω ρ × Answer ρ ε :=
  let s := { s with last := some r }
  match set.sink with
  | none => (s, .scanned r)
  | some take =>
    let taken := take n r s.world
    ({ s with delivered := s.delivered ++ [r], world := taken.2 },
      match taken.1 with
      | some e => .failed e
      | none => .scanned r)

end State

/-- Operations in order, and their answers. -/
def runAll (step : State ω ρ → Op → State ω ρ × Answer ρ ε) (s : State ω ρ) :
    List Op → State ω ρ × List (Answer ρ ε)
  | [] => (s, [])
  | op :: ops =>
    let r := step s op
    let rs := runAll step r.1 ops
    (rs.1, r.2 :: rs.2)

/-- Scans unless a scan is under way. The operations that the scan calls are done by `step`. -/
def scan (set : Setting ω ρ ε) (step : State ω ρ → Op → State ω ρ × Answer ρ ε) (s : State ω ρ) :
    State ω ρ × Answer ρ ε :=
  if s.scanning then (s, .dropped)
  else
    let n := s.begun + 1
    let plan := set.plan n s.world
    let inner := runAll step { s with scanning := true, begun := n } plan.during
    let result := plan.finish inner.2 inner.1.world
    let s := inner.1.release result.2
    match result.1 with
    | .error e => (s, .failed e)
    | .ok r => s.publish set n r

/-- The thread of timer `i`. What its scan throws is swallowed; a tick is followed by the next. -/
def fire (scan : State ω ρ → State ω ρ × Answer ρ ε) (s : State ω ρ) (i : Nat) :
    State ω ρ × Answer ρ ε :=
  match s.timers[i]? with
  | none => (s, .noTimer)
  | some t =>
    let s := s.markFired i
    match t.kind with
    | .tick =>
      let s := (scan s).1
      (if s.running then s.armTick else s, .done)
    | .debounce =>
      let s := if s.debounce? = some i then { s with debounce? := none } else s
      ((scan s).1, .done)

/-- One operation. `depth` bounds how deep scans nest; one level is all that there can be, since
within a scan every trigger is dropped. -/
def step (set : Setting ω ρ ε) : (depth : Nat) → State ω ρ → Op → State ω ρ × Answer ρ ε
  | depth, s, op =>
    let inner := match depth with
      | 0 => fun s _ => (s, .dropped)
      | d + 1 => step set d
    match op with
    | .start => (s.start, .done)
    | .stop => (s.stop, .done)
    | .trigger => scan set inner s
    | .notify m => let r := s.notify m; (r.1, .scheduled r.2)
    | .fire i => fire (scan set inner) s i

/-- An operation called from outside any scan. -/
def perform (set : Setting ω ρ ε) (s : State ω ρ) (op : Op) : State ω ρ × Answer ρ ε := step set 1 s op

end Timing
end StylePrune.Sampling
