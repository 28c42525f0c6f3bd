import StylePrune.Sampling.Timing

/-!
Scans and the operations that they call themselves. While a scan is under way no other begins, so an operation that it
calls comes down to what it does to flags and timers, and how deep scans might nest makes no difference.
-/

set_option autoImplicit false

namespace StylePrune.Sampling.Timing

variable {ω ρ ε : Type}

/-- Operations called one after another, each with the state that it finds. -/
def calls (step : State ω ρ → Op → State ω ρ × Answer ρ ε) (s : State ω ρ) : List Op → List (State ω ρ × Op)
  | [] => []
  | op :: ops => (s, op) :: calls step (step s op).1 ops

section

variable {step step' : State ω ρ → Op → State ω ρ × Answer ρ ε} {P : State ω ρ → Prop} {s : State ω ρ}

theorem runAll_keeps (h : ∀ s op, P s → P (step s op).1) (hs : P s) (ops : List Op) : P (runAll step s ops).1 := by
  induction ops generalizing s with
  | nil => exact hs
  | cons op ops ih => exact ih (h s op hs)

theorem calls_keeps (h : ∀ s op, P s → P (step s op).1) (hs : P s) (ops : List Op) :
    ∀ c ∈ calls step s ops, P c.1 := by
  induction ops generalizing s with
  | nil => exact List.forall_mem_nil _
  | cons op ops ih => exact List.forall_mem_cons.2 ⟨hs, ih (h s op hs)⟩

theorem runAll_congr (h : ∀ s op, P s → step s op = step' s op) (hk : ∀ s op, P s → P (step s op).1) (hs : P s)
    (ops : List Op) : runAll step s ops = runAll step' s ops := by
  induction ops generalizing s with
  | nil => rfl
  | cons op ops ih => simp only [runAll, ← h s op hs, ih (hk s op hs)]

theorem calls_congr (h : ∀ s op, P s → step s op = step' s op) (hk : ∀ s op, P s → P (step s op).1) (hs : P s)
    (ops : List Op) : calls step s ops = calls step' s ops := by
  induction ops generalizing s with
  | nil => rfl
  | cons op ops ih => simp only [calls, ← h s op hs, ih (hk s op hs)]

end

namespace State

/-- Nothing but timers and what is known of them differs. -/
structure Alike (s t : State ω ρ) : Prop where
  world : t.world = s.world
  scanning : t.scanning = s.scanning
  begun : t.begun = s.begun
  last : t.last = s.last
  delivered : t.delivered = s.delivered

namespace Alike

theorem refl (s : State ω ρ) : s.Alike s := ⟨rfl, rfl, rfl, rfl, rfl⟩

theorem trans {s t u : State ω ρ} (h : s.Alike t) (h' : t.Alike u) : s.Alike u :=
  ⟨h'.world.trans h.world, h'.scanning.trans h.scanning, h'.begun.trans h.begun, h'.last.trans h.last,
    h'.delivered.trans h.delivered⟩

end Alike

variable (s : State ω ρ)

theorem alike_cancel (i : Option Nat) : s.Alike (s.cancel i) := by
  cases i <;> exact ⟨rfl, rfl, rfl, rfl, rfl⟩

theorem alike_start : s.Alike s.start := by
  unfold start
  split <;> exact ⟨rfl, rfl, rfl, rfl, rfl⟩

theorem alike_stop : s.Alike s.stop :=
  ((s.alike_cancel s.tick?).trans ((s.cancel s.tick?).alike_cancel s.debounce?)).trans ⟨rfl, rfl, rfl, rfl, rfl⟩

theorem alike_notify (m : Mutation) : s.Alike (s.notify m).1 := by
  unfold notify
  split
  · exact (s.alike_cancel s.debounce?).trans ⟨rfl, rfl, rfl, rfl, rfl⟩
  · exact .refl s

/-- The timer of the latest change is not waited for any more. -/
def forget (i : Nat) : State ω ρ := if s.debounce? = some i then { s with debounce? := none } else s

theorem alike_forget (i : Nat) : s.Alike (s.forget i) := by
  unfold forget
  split <;> exact ⟨rfl, rfl, rfl, rfl, rfl⟩

/-- A tick is followed by the next. -/
def rearm : State ω ρ := if s.running then s.armTick else s

theorem alike_rearm : s.Alike s.rearm := by
  unfold rearm
  split <;> exact ⟨rfl, rfl, rfl, rfl, rfl⟩

/-- The timer's time is up. -/
def expire (i : Nat) : TimerKind → State ω ρ
  | .tick => s.markFired i
  | .debounce => (s.markFired i).forget i

theorem alike_expire (i : Nat) (k : TimerKind) : s.Alike (s.expire i k) := by
  cases k with
  | tick => exact ⟨rfl, rfl, rfl, rfl, rfl⟩
  | debounce => exact (⟨rfl, rfl, rfl, rfl, rfl⟩ : s.Alike (s.markFired i)).trans ((s.markFired i).alike_forget i)

/-- What a timer's thread does after its scan. -/
def resume : TimerKind → State ω ρ
  | .tick => s.rearm
  | .debounce => s

theorem alike_resume (k : TimerKind) : s.Alike (s.resume k) := by
  cases k with
  | tick => exact s.alike_rearm
  | debounce => exact .refl s

/-- What an operation does while a scan is under way. -/
def attend : Op → State ω ρ × Answer ρ ε
  | .start => (s.start, .done)
  | .stop => (s.stop, .done)
  | .trigger => (s, .dropped)
  | .notify m => ((s.notify m).1, .scheduled (s.notify m).2)
  | .fire i => match s.timers[i]? with
    | none => (s, .noTimer)
    | some t => ((s.expire i t.kind).resume t.kind, .done)

theorem alike_attend (op : Op) : s.Alike (s.attend (ε := ε) op).1 := by
  cases op with
  | start => exact s.alike_start
  | stop => exact s.alike_stop
  | trigger => exact .refl s
  | notify m => exact s.alike_notify m
  | fire i =>
    rw [attend]
    split
    · exact .refl s
    · exact (s.alike_expire i _).trans (alike_resume _ _)

/-- The state in which an operation asks for a scan, if it does. -/
def asking? : Op → Option (State ω ρ)
  | .trigger => some s
  | .fire i => s.timers[i]?.map fun t => s.expire i t.kind
  | _ => none

/-- The state in which an operation begins a scan, if it does. -/
def begins? (op : Op) : Option (State ω ρ) := (s.asking? op).filter fun t => !t.scanning

variable {s} in
theorem alike_of_asking? {t : State ω ρ} {op : Op} (h : s.asking? op = some t) : s.Alike t := by
  cases op with
  | trigger => exact Option.some.inj h ▸ .refl s
  | fire i =>
    obtain ⟨x, -, rfl⟩ := Option.map_eq_some_iff.1 h
    exact s.alike_expire i x.kind
  | _ => cases h

variable {s} in
theorem begins?_of_idle (h : s.scanning = false) (op : Op) : s.begins? op = s.asking? op := by
  cases ha : s.asking? op with
  | none => simp [begins?, ha]
  | some t => simp [begins?, ha, (alike_of_asking? ha).scanning.trans h]

/-- A scan is under way. -/
def enter : State ω ρ := { s with scanning := true, begun := s.begun + 1 }

end State

variable {set : Setting ω ρ ε} {s t : State ω ρ} {op : Op}

theorem fire_of_none {i : Nat} (scan : State ω ρ → State ω ρ × Answer ρ ε) (h : s.timers[i]? = none) :
    fire scan s i = (s, .noTimer) := by
  simp [fire, h]

theorem fire_of_some {i : Nat} {x : Timer} (scan : State ω ρ → State ω ρ × Answer ρ ε) (h : s.timers[i]? = some x) :
    fire scan s i = ((scan (s.expire i x.kind)).1.resume x.kind, .done) := by
  obtain ⟨k, _⟩ := x
  cases k <;> (simp only [fire, h]; rfl)

theorem scan_of_scanning (inner : State ω ρ → Op → State ω ρ × Answer ρ ε) (h : t.scanning = true) :
    scan set inner t = (t, .dropped) := by
  simp [scan, h]

theorem step_of_scanning (set : Setting ω ρ ε) (depth : Nat) (h : s.scanning = true) (op : Op) :
    step set depth s op = s.attend op := by
  cases op with
  | start | stop | notify m => cases depth <;> rfl
  | trigger => cases depth <;> exact scan_of_scanning _ h
  | fire i =>
    have hfire (inner : State ω ρ → Op → State ω ρ × Answer ρ ε) :
        fire (scan set inner) s i = s.attend (.fire i) := by
      cases ht : s.timers[i]? with
      | none => simp [fire_of_none _ ht, State.attend, ht]
      | some x =>
        have he : (s.expire i x.kind).scanning = true := (s.alike_expire i x.kind).scanning.trans h
        simp [fire_of_some _ ht, State.attend, ht, scan_of_scanning _ he]
    cases depth <;> exact hfire _

theorem alike_step (depth : Nat) (h : s.scanning = true) (op : Op) : s.Alike (step set depth s op).1 := by
  rw [step_of_scanning set depth h]
  exact s.alike_attend op

/-- The operations that a scan calls which begins in `s`. -/
def during (set : Setting ω ρ ε) (s : State ω ρ) : List Op := (set.plan (s.begun + 1) s.world).during

/-- How a scan that begins in `s` leaves the scheduler before it ends, and the answers that it got. -/
def inside (set : Setting ω ρ ε) (depth : Nat) (s : State ω ρ) : State ω ρ × List (Answer ρ ε) :=
  runAll (step set depth) s.enter (during set s)

/-- How a scan that begins in `s` ends. -/
def ended (set : Setting ω ρ ε) (depth : Nat) (s : State ω ρ) : Except ε ρ × ω :=
  (set.plan (s.begun + 1) s.world).finish (inside set depth s).2 (inside set depth s).1.world

/-- The calls from within the scan that an operation begins. -/
def callsWithin (set : Setting ω ρ ε) (depth : Nat) (s : State ω ρ) (op : Op) : List (State ω ρ × Op) :=
  match s.begins? op with
  | none => []
  | some t => calls (step set depth) t.enter (during set t)

/-- Within a scan nothing happens but to timers. -/
theorem alike_of_mem_calls (depth : Nat) (ops : List Op) :
    ∀ c ∈ calls (step set depth) s.enter ops, s.enter.Alike c.1 :=
  calls_keeps (fun _ op h => h.trans (alike_step depth h.scanning op)) (.refl _) ops

theorem alike_inside (depth : Nat) : s.enter.Alike (inside set depth s).1 :=
  runAll_keeps (fun _ op h => h.trans (alike_step depth h.scanning op)) (.refl _) _

theorem inside_eq (depth : Nat) : inside set depth s = inside set 0 s :=
  runAll_congr (P := (·.scanning = true))
    (fun _ op h => (step_of_scanning set depth h op).trans (step_of_scanning set 0 h op).symm)
    (fun _ op h => (alike_step depth h op).scanning.trans h) rfl _

theorem scan_of_idle (depth : Nat) (h : s.scanning = false) : scan set (step set depth) s =
    match (ended set depth s).1 with
    | .error e => ((inside set depth s).1.release (ended set depth s).2, .failed e)
    | .ok r => ((inside set depth s).1.release (ended set depth s).2).publish set (s.begun + 1) r := by
  rw [scan, if_neg (by simp [h])]
  rfl

/-- What a scan leaves: timers as its own calls left them, the way clear, and its value, if it returned one, known
and handed on. -/
theorem scan_spec (set : Setting ω ρ ε) (depth : Nat) (h : s.scanning = false) : ∃ w, (scan set (step set depth) s).1 =
    { (inside set depth s).1 with
      world := w
      scanning := false
      last := (ended set depth s).1.toOption.or s.last
      delivered := s.delivered ++ if set.sink.isSome then (ended set depth s).1.toOption.toList else [] } := by
  have hlast : (inside set depth s).1.last = s.last := (alike_inside depth).last
  have hdelivered : (inside set depth s).1.delivered = s.delivered := (alike_inside depth).delivered
  rw [scan_of_idle depth h]
  cases (ended set depth s).1 with
  | error e => exact ⟨(ended set depth s).2, by simp [State.release, Except.toOption, ← hlast, ← hdelivered]⟩
  | ok r =>
    cases hs : set.sink with
    | none =>
      exact ⟨(ended set depth s).2, by simp [State.publish, State.release, Except.toOption, hs, ← hdelivered]⟩
    | some take =>
      exact ⟨(take (s.begun + 1) r (ended set depth s).2).2,
        by simp [State.publish, State.release, Except.toOption, hs, ← hdelivered]⟩

/-- However deep scans might nest, they do not. -/
theorem step_eq_perform (depth : Nat) (s : State ω ρ) (op : Op) : step set (depth + 1) s op = perform set s op := by
  have hscan (t : State ω ρ) : scan set (step set depth) t = scan set (step set 0) t := by
    cases h : t.scanning with
    | true => rw [scan_of_scanning _ h, scan_of_scanning _ h]
    | false => rw [scan_of_idle depth h, scan_of_idle 0 h, ended, ended, inside_eq depth]
  cases op with
  | start | stop | notify m => rfl
  | trigger => exact hscan s
  | fire i => exact congrArg (fire · s i) (funext hscan)

/-- An operation called from outside asks for a scan or does not; beside that it only changes timers. -/
theorem perform_cases (set : Setting ω ρ ε) (s : State ω ρ) (op : Op) :
    (s.asking? op = none ∧ s.Alike (perform set s op).1) ∨
      ∃ t, s.asking? op = some t ∧ (scan set (step set 0) t).1.Alike (perform set s op).1 := by
  cases op with
  | start => exact .inl ⟨rfl, s.alike_start⟩
  | stop => exact .inl ⟨rfl, s.alike_stop⟩
  | notify m => exact .inl ⟨rfl, s.alike_notify m⟩
  | trigger => exact .inr ⟨s, rfl, .refl _⟩
  | fire i =>
    have hp : perform set s (.fire i) = fire (scan set (step set 0)) s i := rfl
    rw [hp]
    cases ht : s.timers[i]? with
    | none =>
      rw [fire_of_none _ ht]
      exact .inl ⟨by simp [State.asking?, ht], .refl s⟩
    | some x =>
      rw [fire_of_some _ ht]
      exact .inr ⟨s.expire i x.kind, by simp [State.asking?, ht], State.alike_resume _ _⟩

theorem callsWithin_of_asking (hs : s.scanning = false) (ht : s.asking? op = some t) :
    callsWithin set 0 s op = calls (step set 0) t.enter (during set t) := by
  rw [callsWithin, State.begins?_of_idle hs, ht]

theorem perform_of_asking_none (h : s.asking? op = none) : perform set s op = s.attend op := by
  cases op with
  | start | stop | notify m => rfl
  | trigger => cases h
  | fire i =>
    have ht : s.timers[i]? = none := Option.map_eq_none_iff.1 h
    have hp : perform set s (.fire i) = fire (scan set (step set 0)) s i := rfl
    rw [hp, fire_of_none _ ht, State.attend, ht]

variable (set) in
/-- An operation that asks for a scan does no more behind it than a timer's thread does. -/
theorem perform_of_asking (h : s.asking? op = some t) :
    ∃ k, (perform set s op).1 = (scan set (step set 0) t).1.resume k := by
  cases op with
  | trigger =>
    obtain rfl := Option.some.inj h
    exact ⟨.debounce, rfl⟩
  | fire i =>
    obtain ⟨x, hx, rfl⟩ := Option.map_eq_some_iff.1 h
    have hp : perform set s (.fire i) = fire (scan set (step set 0)) s i := rfl
    exact ⟨x.kind, by rw [hp, fire_of_some _ hx]⟩
  | _ => cases h

theorem scanning_perform (h : s.scanning = false) (op : Op) : (perform set s op).1.scanning = false := by
  obtain ⟨-, halike⟩ | ⟨t, ht, halike⟩ := perform_cases set s op
  · exact halike.scanning.trans h
  · obtain ⟨w, hw⟩ := scan_spec set 0 ((State.alike_of_asking? ht).scanning.trans h)
    rw [halike.scanning, hw]

end StylePrune.Sampling.Timing
