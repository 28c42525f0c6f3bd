import StylePrune.Proofs.Sampling.Guard
import StylePrune.Proofs.Sampling.Ticks

/-!
The interval never runs out. A tick that fires is not waited for any more and arms the next one only after its scan, so
in between there may be none; but whatever the scan does and however it ends, one is waited for when it is over, unless
the scheduler was stopped.
-/

set_option autoImplicit false

namespace StylePrune.Sampling.Timing

variable {ω ρ ε : Type}

namespace State

variable {s t : State ω ρ} {i : Nat} {b : Bool}

/-- While the scheduler runs a tick is waited for, unless the thread of one is `busy` and arms the next at its end. -/
structure Ticking (busy : Bool) (s : State ω ρ) : Prop where
  pending : busy = false → s.running = true → ∃ i, s.Pending .tick i
  kept : ∀ i, s.debounce? = some i → s.kinds[i]? = some .debounce

/-- The operation is what the thread of a tick does. -/
def firesTick (s : State ω ρ) : Op → Bool
  | .fire i => s.timers[i]?.any (·.kind = .tick)
  | _ => false

namespace Ticking

theorem congr (h : Ticking b s) (ht : t.timers = s.timers) (hr : t.running = s.running)
    (hd : t.debounce? = s.debounce?) : Ticking b t := by
  refine ⟨fun hb hr' => ?_, fun i hi => ?_⟩
  · obtain ⟨i, hi⟩ := h.pending hb (hr ▸ hr')
    refine ⟨i, ?_⟩
    rwa [Pending, ht]
  · rw [kinds, ht]
    exact h.kept i (hd ▸ hi)

theorem weaken (h : Ticking false s) : Ticking b s := ⟨fun _ => h.pending rfl, h.kept⟩

theorem armTick (hk : ∀ i, s.debounce? = some i → s.kinds[i]? = some .debounce) : Ticking false s.armTick where
  pending _ _ := ⟨s.timers.length, (pending_addTimer s .tick).2 (.inr ⟨rfl, rfl⟩)⟩
  kept i hi := by
    have hi := hk i hi
    refine (congrArg (·[i]?) (kinds_addTimer s .tick)).trans ?_
    rwa [List.getElem?_append_left (List.getElem?_eq_some_iff.1 hi).1]

theorem start (h : Ticking b s) : Ticking b s.start := by
  unfold State.start
  split
  · exact h
  · exact (armTick (s := { s with running := true }) h.kept).weaken

theorem stop : Ticking b s.stop := ⟨fun _ hr => (by cases hr), fun _ hd => (by cases hd)⟩

/-- The timer of a change is no tick, and so the next change cancels none. -/
theorem notify (h : Ticking b s) (m : Mutation) : Ticking b (s.notify m).1 := by
  unfold State.notify
  split
  · refine ⟨fun hb hr => ?_, fun i hi => ?_⟩
    · obtain ⟨i, hi⟩ := h.pending hb ((running_cancel s s.debounce?).symm.trans hr)
      have hne : s.debounce? ≠ some i := fun hd => by simpa using hi.kinds.symm.trans (h.kept i hd)
      exact ⟨i, (pending_addTimer _ _).2 (.inl ((pending_cancel _).2 ⟨hi, hne⟩))⟩
    · obtain rfl := Option.some.inj hi
      refine (congrArg (·[s.timers.length]?) (kinds_addTimer (s.cancel s.debounce?) .debounce)).trans ?_
      simp [kinds]
  · exact h

/-- A tick that fires may have been the one that is waited for; its thread is busy from then on. -/
theorem expire (h : Ticking b s) {x : Timer} (hx : s.timers[i]? = some x) :
    Ticking (b || x.kind = .tick) (s.expire i x.kind) := by
  obtain ⟨k, st⟩ := x
  cases k with
  | tick => exact ⟨fun hb => by simp at hb, fun j hj => (congrArg (·[j]?) (kinds_markFired s i)).trans (h.kept j hj)⟩
  | debounce =>
    have hf : Ticking b (s.markFired i) := by
      refine ⟨fun hb hr => ?_, fun j hj => (congrArg (·[j]?) (kinds_markFired s i)).trans (h.kept j hj)⟩
      obtain ⟨j, hj⟩ := h.pending hb hr
      refine ⟨j, pending_markFired.2 ⟨hj, ?_⟩⟩
      rintro rfl
      simpa using hx.symm.trans hj
    simp only [State.expire, State.forget, reduceCtorEq, decide_false, Bool.or_false]
    split
    · exact ⟨hf.pending, fun _ hd => by cases hd⟩
    · exact hf

theorem rearm (h : Ticking b s) : Ticking false s.rearm := by
  unfold State.rearm
  split
  · exact armTick h.kept
  · exact ⟨fun _ hr => absurd hr ‹_›, h.kept⟩

/-- Behind a timer's thread a tick is waited for, if one was before. -/
theorem resume {k : TimerKind} (h : Ticking (b || k = .tick) s) : Ticking b (s.resume k) := by
  cases k with
  | tick => exact h.rearm.weaken
  | debounce => simpa [State.resume] using h

theorem attend (h : Ticking b s) (op : Op) : Ticking b (s.attend (ε := ε) op).1 := by
  cases op with
  | start => exact h.start
  | stop => exact stop
  | trigger => exact h
  | notify m => exact h.notify m
  | fire i =>
    rw [State.attend]
    split
    · exact h
    · exact (h.expire ‹_›).resume

end Ticking

end State

variable (set : Setting ω ρ ε) {s : State ω ρ} {b : Bool}

namespace State.Ticking

/-- Within a scan each operation keeps a tick waited for, or the thread of the tick that scans busy. -/
theorem runAll (h : Ticking b s) (hs : s.scanning = true) (ops : List Op) :
    (∀ c ∈ calls (step set 0) s ops, Ticking b c.1) ∧ Ticking b (Timing.runAll (step set 0) s ops).1 := by
  have keeps (t : State ω ρ) (op : Op) (ht : Ticking b t ∧ t.scanning = true) :
      Ticking b (step set 0 t op).1 ∧ (step set 0 t op).1.scanning = true := by
    refine ⟨?_, (alike_step 0 ht.2 op).scanning.trans ht.2⟩
    rw [step_of_scanning set 0 ht.2]
    exact ht.1.attend op
  exact ⟨fun c hc => (calls_keeps keeps ⟨h, hs⟩ ops c hc).1, (runAll_keeps keeps ⟨h, hs⟩ ops).1⟩

theorem scan (h : Ticking b s) (hs : s.scanning = false) :
    (∀ c ∈ calls (step set 0) s.enter (during set s), Ticking b c.1) ∧
      Ticking b (Timing.scan set (step set 0) s).1 := by
  have he : Ticking b s.enter := h.congr rfl rfl rfl
  obtain ⟨hcalls, hrun⟩ := he.runAll set rfl (during set s)
  obtain ⟨w, hw⟩ := scan_spec set 0 hs
  rw [hw]
  exact ⟨hcalls, hrun.congr rfl rfl rfl⟩

/-- One operation called from outside, and the calls from within its scan. -/
theorem perform (h : Ticking false s) (hs : s.scanning = false) (op : Op) :
    Ticking false (Timing.perform set s op).1 ∧ ∀ c ∈ callsWithin set 0 s op, Ticking (s.firesTick op) c.1 := by
  cases op with
  | start => exact ⟨h.start, List.forall_mem_nil _⟩
  | stop => exact ⟨stop, List.forall_mem_nil _⟩
  | notify m => exact ⟨h.notify m, List.forall_mem_nil _⟩
  | trigger =>
    obtain ⟨hcalls, hscan⟩ := h.scan set hs
    rw [callsWithin_of_asking hs rfl]
    exact ⟨hscan, hcalls⟩
  | fire i =>
    have hp : Timing.perform set s (.fire i) = fire (Timing.scan set (step set 0)) s i := rfl
    rw [hp]
    cases hx : s.timers[i]? with
    | none =>
      rw [fire_of_none _ hx]
      refine ⟨h, ?_⟩
      simp [callsWithin, begins?, asking?, hx]
    | some x =>
      have he : Ticking (s.firesTick (.fire i)) (s.expire i x.kind) := by
        simpa [firesTick, hx] using h.expire hx
      obtain ⟨hcalls, hscan⟩ := he.scan set ((s.alike_expire i x.kind).scanning.trans hs)
      rw [fire_of_some _ hx, callsWithin_of_asking hs (t := s.expire i x.kind) (by simp [asking?, hx])]
      refine ⟨Ticking.resume ?_, hcalls⟩
      simpa [firesTick, hx] using hscan

end State.Ticking

theorem ticking_initial (w : ω) : State.Ticking false (State.initial w : State ω ρ) :=
  ⟨fun _ hr => (by cases hr), fun _ hd => (by cases hd)⟩

theorem ticking_runAll (h : State.Ticking false s) (hs : s.scanning = false) (ops : List Op) :
    State.Ticking false (runAll (perform set) s ops).1 ∧ (runAll (perform set) s ops).1.scanning = false :=
  runAll_keeps (P := fun s => State.Ticking false s ∧ s.scanning = false)
    (fun _ op h => ⟨(h.1.perform set h.2 op).1, scanning_perform h.2 op⟩) ⟨h, hs⟩ ops

/-- Scanning on the interval never dies, over every run of operations, whatever timers fire and in which state they
are, whatever scans call and however they and what takes their results end. Between operations a tick is waited for
while the scheduler runs, and it scans when it fires. While a scan is under way one is waited for as well, unless the
scan is that of a tick, which arms the next one behind it. -/
theorem exists_pending_tick (set : Setting ω ρ ε) (w : ω) (ops : List Op) :
    let s := (runAll (perform set) (State.initial w) ops).1
    (s.running = true → ∃ i, s.Pending .tick i ∧ (perform set s (.fire i)).1.begun = s.begun + 1) ∧
      ∀ op, s.firesTick op = false →
        ∀ c ∈ callsWithin set 0 s op, c.1.running = true → ∃ i, c.1.Pending .tick i := by
  intro s
  obtain ⟨h, hs⟩ : State.Ticking false s ∧ s.scanning = false := ticking_runAll set (ticking_initial w) rfl ops
  refine ⟨fun hr => ?_, fun op hop c hc => ?_⟩
  · obtain ⟨i, hi⟩ := h.pending rfl hr
    have hx : s.timers[i]? = some ⟨.tick, .pending⟩ := hi
    refine ⟨i, hi, ?_⟩
    rw [begun_perform hs, State.asking?, hx]
    rfl
  · exact ((h.perform set hs op).2 c hc).pending hop

/-- Every scan restarts the scheduler. The first one fails, and what takes the results of the others fails too. -/
def failing : Setting Unit Nat Unit where
  plan n _ := ⟨[.stop, .start], fun _ w => (if n = 1 then .error () else .ok n, w)⟩
  sink := some fun _ _ w => (some (), w)

/-- A tick fires, fires again when its time is over, and a scan on demand follows. -/
theorem exists_pending_tick_failing :
    let s := (runAll (perform failing) (State.initial ()) [.start, .fire 0, .fire 0]).1
    s.running = true ∧ (∃ i, s.Pending .tick i ∧ (perform failing s (.fire i)).1.begun = s.begun + 1) ∧
      s.firesTick .trigger = false ∧ (s.enter, .stop) ∈ callsWithin failing 0 s .trigger ∧ s.enter.running = true ∧
        ∃ i, s.enter.Pending .tick i := by
  intro s
  have hr : s.running = true := rfl
  have hcalls : callsWithin failing 0 s .trigger = [(s.enter, .stop), (s.enter.stop, .start)] := rfl
  have hc : (s.enter, .stop) ∈ callsWithin failing 0 s .trigger := by
    rw [hcalls]
    exact List.mem_cons_self
  have hin : s.enter.running = true := hr
  obtain ⟨hpending, hwithin⟩ := exists_pending_tick failing () [.start, .fire 0, .fire 0]
  have hwithin := hwithin .trigger rfl (s.enter, .stop) hc
  exact ⟨hr, hpending hr, rfl, hc, hin, hwithin hin⟩

end StylePrune.Sampling.Timing
