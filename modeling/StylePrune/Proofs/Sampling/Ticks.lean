import Mathlib
import StylePrune.Proofs.Sampling.Nesting

/-!
Timers that are waited for. The scheduler can cancel one tick, the one that it armed last, so all is well as long as it
waits for no other. That fails in one way: the scan of a tick stops the scheduler and starts it again, which arms a
tick, and then the tick itself is followed by one more.
-/

set_option autoImplicit false

namespace StylePrune.Sampling.Timing

variable {ω ρ ε : Type}

namespace State

variable {s t : State ω ρ} {k k' : TimerKind} {i j : Nat}

/-! ## Timers -/

/-- Timer `i` is of that kind, and its time is still to come. -/
def Pending (s : State ω ρ) (k : TimerKind) (i : Nat) : Prop := s.timers[i]? = some ⟨k, .pending⟩

/-- What the timers are, whatever became of them. -/
def kinds (s : State ω ρ) : List TimerKind := s.timers.map Timer.kind

theorem Pending.kinds (h : s.Pending k i) : s.kinds[i]? = some k := by
  rw [State.kinds, List.getElem?_map, show s.timers[i]? = _ from h]
  rfl

theorem Pending.lt (h : s.Pending k i) : i < s.timers.length := (List.getElem?_eq_some_iff.1 h).1

theorem pending_cancel (o : Option Nat) : (s.cancel o).Pending k i ↔ s.Pending k i ∧ o ≠ some i := by
  cases o with
  | none => simp [cancel]
  | some j =>
    simp only [Pending, cancel, List.getElem?_modify, ne_eq, Option.some.injEq]
    by_cases h : j = i
    · cases ht : s.timers[i]? with
      | none => simp [h]
      | some x =>
        by_cases hx : x.state = .pending
        · simp [h, hx]
        · simp only [h, if_true, Option.map_eq_map, Option.map_some, hx, if_false, not_true_eq_false, and_false,
            iff_false, Option.some.injEq]
          exact fun he => hx (congrArg Timer.state he)
    · simp [h]

theorem pending_addTimer (s : State ω ρ) (k' : TimerKind) :
    (s.addTimer k').Pending k i ↔ s.Pending k i ∨ k' = k ∧ i = s.timers.length := by
  simp only [Pending, addTimer, List.getElem?_append]
  split
  · rename_i h
    simp [Nat.ne_of_lt h]
  · rename_i h
    have hn : s.timers[i]? = none := List.getElem?_eq_none (Nat.le_of_not_lt h)
    rw [hn, List.getElem?_singleton]
    by_cases hi : i = s.timers.length
    · simp [hi]
    · simp [hi, show i - s.timers.length ≠ 0 by omega]

theorem pending_markFired : (s.markFired j).Pending k i ↔ s.Pending k i ∧ j ≠ i := by
  simp only [Pending, markFired, List.getElem?_modify, ne_eq]
  by_cases h : j = i
  · cases s.timers[i]? <;> simp [h]
  · simp [h]

@[simp] theorem length_cancel (s : State ω ρ) (o : Option Nat) : (s.cancel o).timers.length = s.timers.length := by
  cases o <;> simp [cancel]

@[simp] theorem running_cancel (s : State ω ρ) (o : Option Nat) : (s.cancel o).running = s.running := by
  cases o <;> rfl

@[simp] theorem tick?_cancel (s : State ω ρ) (o : Option Nat) : (s.cancel o).tick? = s.tick? := by
  cases o <;> rfl

theorem kinds_modify (f : Timer → Timer) (hf : ∀ x, (f x).kind = x.kind) (i : Nat) :
    (s.timers.modify i f).map Timer.kind = s.kinds := by
  refine List.ext_getElem? fun j => ?_
  rw [kinds, List.getElem?_map, List.getElem?_map, List.getElem?_modify]
  split
  · cases s.timers[j]? <;> simp [hf]
  · simp

@[simp] theorem kinds_cancel (s : State ω ρ) (o : Option Nat) : (s.cancel o).kinds = s.kinds := by
  cases o with
  | none => rfl
  | some i => exact kinds_modify _ (fun x => by split <;> rfl) i

@[simp] theorem kinds_markFired (s : State ω ρ) (i : Nat) : (s.markFired i).kinds = s.kinds :=
  kinds_modify (fun t => { t with state := .fired }) (fun _ => rfl) i

@[simp] theorem kinds_addTimer (s : State ω ρ) (k : TimerKind) : (s.addTimer k).kinds = s.kinds ++ [k] := by
  simp [kinds, addTimer]

/-- At most one tick is waited for, and while the scheduler is stopped nothing is. -/
structure Sound (s : State ω ρ) : Prop where
  one : ∀ i j, s.Pending .tick i → s.Pending .tick j → i = j
  stopped : s.running = false → ∀ k i, ¬ s.Pending k i

/-- Only timers fire that are waited for. -/
def Allows (s : State ω ρ) : Op → Bool
  | .fire i => s.timers[i]?.any (·.state = .pending)
  | _ => true

theorem allows_fire_iff : s.Allows (.fire i) = true ↔ ∃ k, s.Pending k i := by
  simp only [Allows, Pending, Option.any_eq_true, decide_eq_true_eq]
  constructor
  · rintro ⟨⟨k, st⟩, hx, rfl⟩
    exact ⟨k, hx⟩
  · rintro ⟨k, hx⟩
    exact ⟨_, hx, rfl⟩

/-! ## What `stop` can cancel -/

/-- What is waited for is what `stop` would cancel. Unless `armed`, the tick that was armed last has fired and is not
yet followed by the next. -/
structure Wound (armed : Bool) (s : State ω ρ) : Prop where
  tick : ∀ i, s.Pending .tick i ↔ armed = true ∧ s.running = true ∧ s.tick? = some i
  stored : s.running = true → s.tick?.isSome = true
  debounce : ∀ i, s.Pending .debounce i → s.running = true ∧ s.debounce? = some i
  kept : ∀ i, s.debounce? = some i → s.kinds[i]? = some .debounce
  running : armed = false → s.running = true

namespace Wound

variable {a : Bool}

theorem congr (h : Wound a s) (ht : t.timers = s.timers) (hr : t.running = s.running) (hk : t.tick? = s.tick?)
    (hd : t.debounce? = s.debounce?) : Wound a t := by
  have hp (k : TimerKind) (i : Nat) : t.Pending k i ↔ s.Pending k i := by rw [Pending, Pending, ht]
  refine ⟨fun i => ?_, fun h' => ?_, fun i hi => ?_, fun i hi => ?_, fun h' => ?_⟩
  · rw [hp, h.tick, hr, hk]
  · rw [hk]
    exact h.stored (hr ▸ h')
  · rw [hr, hd]
    exact h.debounce i ((hp _ i).1 hi)
  · rw [kinds, ht]
    exact h.kept i (hd ▸ hi)
  · rw [hr]
    exact h.running h'

theorem running_of_pending (h : Wound a s) (hp : s.Pending k i) : s.running = true := by
  cases k with
  | tick => exact ((h.tick i).1 hp).2.1
  | debounce => exact (h.debounce i hp).1

theorem sound (h : Wound a s) : s.Sound where
  one i j hi hj := Option.some.inj (((h.tick i).1 hi).2.2.symm.trans ((h.tick j).1 hj).2.2)
  stopped hs k i hp := by simp [h.running_of_pending hp] at hs

/-- A tick is armed where none is waited for. -/
theorem armTick (hr : s.running = true) (hn : ∀ i, ¬ s.Pending .tick i)
    (hd : ∀ i, s.Pending .debounce i → s.debounce? = some i)
    (hk : ∀ i, s.debounce? = some i → s.kinds[i]? = some .debounce) : Wound true s.armTick where
  tick i := by
    refine (pending_addTimer s .tick).trans ?_
    simp [hn, State.armTick, addTimer, hr, eq_comm]
  stored _ := rfl
  debounce i hi := ⟨hr, hd i (((pending_addTimer s .tick).1 hi).resolve_right (by simp))⟩
  kept i hi := by
    have hk := hk i hi
    refine (congrArg (·[i]?) (kinds_addTimer s .tick)).trans ?_
    rwa [List.getElem?_append_left (List.getElem?_eq_some_iff.1 hk).1]
  running h := nomatch h

theorem start (h : Wound a s) : Wound a s.start := by
  unfold State.start
  split
  · exact h
  · rename_i hr
    have hp (k : TimerKind) (i : Nat) : ¬ s.Pending k i := fun hp => hr (h.running_of_pending hp)
    have ha : a = true := by
      cases a with
      | true => rfl
      | false => exact absurd (h.running rfl) hr
    rw [ha]
    exact armTick rfl (hp .tick) (fun i hi => absurd hi (hp .debounce i)) h.kept

theorem stop (h : Wound a s) : Wound true s.stop := by
  have hp (k : TimerKind) (i : Nat) : ¬ s.stop.Pending k i := by
    intro hp
    have hc : ((s.cancel s.tick?).cancel s.debounce?).Pending k i := hp
    rw [pending_cancel, pending_cancel] at hc
    cases k with
    | tick => exact hc.1.2 ((h.tick i).1 hc.1.1).2.2
    | debounce => exact hc.2 (h.debounce i hc.1.1).2
  exact ⟨fun i => iff_of_false (hp _ i) (by simp [State.stop]), (nomatch ·), fun i hi => absurd hi (hp _ i),
    fun _ => (nomatch ·), (nomatch ·)⟩

theorem notify (h : Wound a s) (m : Mutation) : Wound a (s.notify m).1 := by
  unfold State.notify
  split
  · rename_i hm
    have hr : s.running = true := (Bool.and_eq_true_iff.1 hm).2
    have hp (k : TimerKind) (i : Nat) :
        ({ (s.cancel s.debounce?).addTimer .debounce with debounce? := some s.timers.length } : State ω ρ).Pending k i ↔
          (s.Pending k i ∧ s.debounce? ≠ some i) ∨ .debounce = k ∧ i = s.timers.length := by
      refine (pending_addTimer _ _).trans ?_
      rw [pending_cancel, length_cancel]
    refine ⟨fun i => ?_, fun _ => ?_, fun i hi => ⟨?_, ?_⟩, fun i hi => ?_, fun _ => ?_⟩
    · have hd : s.Pending .tick i → s.debounce? ≠ some i := fun hi hd => by
        simpa using hi.kinds.symm.trans (h.kept i hd)
      rw [hp]
      simpa [addTimer, and_iff_left_of_imp hd] using h.tick i
    · simpa [addTimer] using h.stored hr
    · simpa [addTimer] using hr
    · rcases (hp _ i).1 hi with ⟨hi, hd⟩ | ⟨-, rfl⟩
      · exact absurd (h.debounce i hi).2 hd
      · rfl
    · obtain rfl := Option.some.inj hi
      refine (congrArg (·[s.timers.length]?) (kinds_addTimer (s.cancel s.debounce?) .debounce)).trans ?_
      simp [kinds]
    · simpa [addTimer] using hr
  · exact h

/-- The tick that is waited for fires. -/
theorem markFired (h : Wound a s) (hi : s.Pending .tick i) : Wound false (s.markFired i) := by
  obtain ⟨-, hr, ht⟩ := (h.tick i).1 hi
  refine ⟨fun j => iff_of_false (fun hj => ?_) (by simp), fun _ => h.stored hr, fun j hj => ?_, fun j hj => ?_,
    fun _ => hr⟩
  · obtain ⟨hj, hij⟩ := pending_markFired.1 hj
    exact hij (Option.some.inj (ht.symm.trans ((h.tick j).1 hj).2.2))
  · exact h.debounce j (pending_markFired.1 hj).1
  · rw [kinds_markFired]
    exact h.kept j hj

/-- The timer of the latest change fires. -/
theorem forget (h : Wound a s) (hi : s.Pending .debounce i) : Wound a ((s.markFired i).forget i) := by
  obtain ⟨hr, hd⟩ := h.debounce i hi
  have hf : (s.markFired i).forget i = { s.markFired i with debounce? := none } := if_pos hd
  rw [hf]
  refine ⟨fun j => ?_, h.stored, fun j hj => ?_, fun _ => (nomatch ·), h.running⟩
  · have hij : s.Pending .tick j → i ≠ j := by
      rintro hj rfl
      cases hi.kinds.symm.trans hj.kinds
    exact (pending_markFired.trans (and_iff_left_of_imp hij)).trans (h.tick j)
  · obtain ⟨hj, hij⟩ := pending_markFired.1 hj
    exact absurd (Option.some.inj (hd.symm.trans (h.debounce j hj).2)) hij

/-- After a tick that was not stopped the next is armed. -/
theorem rearm (h : Wound false s) : Wound true s.rearm := by
  have hr := h.running rfl
  rw [State.rearm, if_pos hr]
  exact armTick hr (fun i hi => by simpa using (h.tick i).1 hi) (fun i hi => (h.debounce i hi).2) h.kept

theorem attend (h : Wound a s) {op : Op} (ha : s.Allows op = true) :
    Wound (a || op = .stop) (s.attend (ε := ε) op).1 := by
  cases op with
  | start => simpa [State.attend] using h.start
  | stop => simpa [State.attend] using h.stop
  | trigger => simpa [State.attend] using h
  | notify m => simpa [State.attend] using h.notify m
  | fire i =>
    obtain ⟨k, hi⟩ := allows_fire_iff.1 ha
    have ht : s.timers[i]? = some ⟨k, .pending⟩ := hi
    simp only [State.attend, ht, reduceCtorEq, decide_false, Bool.or_false]
    cases k with
    | tick =>
      obtain ⟨rfl, -⟩ := (h.tick i).1 hi
      exact (h.markFired hi).rearm
    | debounce => exact h.forget hi

end Wound

end State

/-! ## Runs -/

/-- All calls of a run, those from within scans included. -/
def allCalls (set : Setting ω ρ ε) (s : State ω ρ) (ops : List Op) : List (State ω ρ × Op) :=
  (calls (perform set) s ops).flatMap fun c => c :: callsWithin set 0 c.1 c.2

/-- The operation fires a tick whose scan stops the scheduler, and yet the scheduler runs when the scan ends. -/
def Restarts (set : Setting ω ρ ε) (s : State ω ρ) : Op → Prop
  | .fire i => (∃ x, s.timers[i]? = some x ∧ x.kind = .tick) ∧ .stop ∈ during set (s.markFired i) ∧
    (inside set 0 (s.markFired i)).1.running = true
  | _ => False

/-- A call finds and leaves the scheduler sound, and fires a timer only while the scheduler runs. -/
structure SoundCall (set : Setting ω ρ ε) (c : State ω ρ × Op) : Prop where
  before : c.1.Sound
  after : (perform set c.1 c.2).1.Sound
  running : ∀ i, c.2 = .fire i → c.1.running = true

variable {set : Setting ω ρ ε} {s : State ω ρ} {a : Bool}

namespace State.Wound

/-- Within a scan each call is sound, and after them no tick is armed only if none was and the scheduler was not
stopped. -/
theorem runAll (h : Wound a s) (hs : s.scanning = true) {ops : List Op}
    (ha : ∀ c ∈ calls (step set 0) s ops, c.1.Allows c.2 = true) :
    Wound (a || decide (.stop ∈ ops)) (Timing.runAll (step set 0) s ops).1 ∧
      ∀ c ∈ calls (step set 0) s ops, SoundCall set c := by
  induction ops generalizing s a with
  | nil => exact ⟨by simpa [Timing.runAll] using h, List.forall_mem_nil _⟩
  | cons op ops ih =>
    obtain ⟨hop, hops⟩ := List.forall_mem_cons.1 ha
    have hw := h.attend (ε := ε) hop
    rw [← step_of_scanning set 0 hs] at hw
    obtain ⟨hrun, hcalls⟩ := ih hw ((alike_step 0 hs op).scanning.trans hs) hops
    refine ⟨?_, List.forall_mem_cons.2 ⟨⟨h.sound, ?_, fun i hi => ?_⟩, hcalls⟩⟩
    · simpa [Timing.runAll, Bool.or_assoc, eq_comm] using hrun
    · rw [← step_eq_perform 0, step_of_scanning set 1 hs, ← step_of_scanning set 0 hs]
      exact hw.sound
    · obtain ⟨k, hk⟩ := State.allows_fire_iff.1 (hi ▸ hop)
      exact h.running_of_pending hk

/-- A scan leaves timers as its calls left them. -/
theorem scan (h : Wound a s) (hs : s.scanning = false)
    (ha : ∀ c ∈ calls (step set 0) s.enter (during set s), c.1.Allows c.2 = true) :
    Wound (a || decide (.stop ∈ during set s)) (Timing.scan set (step set 0) s).1 ∧
      (Timing.scan set (step set 0) s).1.running = (inside set 0 s).1.running ∧
      ∀ c ∈ calls (step set 0) s.enter (during set s), SoundCall set c := by
  have he : Wound a s.enter := h.congr rfl rfl rfl rfl
  obtain ⟨hrun, hcalls⟩ := he.runAll rfl ha
  obtain ⟨w, hw⟩ := scan_spec set 0 hs
  rw [hw]
  exact ⟨hrun.congr rfl rfl rfl rfl, rfl, hcalls⟩

/-- A tick that is armed beside the one that is waited for cannot be cancelled any more. -/
theorem not_sound_rearm (h : Wound true s) (hr : s.running = true) : ¬ s.rearm.Sound := by
  intro hs
  obtain ⟨j, hj⟩ := Option.isSome_iff_exists.1 (h.stored hr)
  have hp : s.Pending .tick j := (h.tick j).2 ⟨rfl, hr, hj⟩
  rw [State.rearm, if_pos hr] at hs
  have hnew : (s.addTimer .tick).Pending .tick s.timers.length := (pending_addTimer _ _).2 (.inr ⟨rfl, rfl⟩)
  have hone := hs.one j s.timers.length ((pending_addTimer _ _).2 (.inl hp)) hnew
  exact absurd hp.lt (by omega)

/-- One operation called from outside. What it leaves `stop` can cancel, unless it restarts the scheduler: then two
ticks are waited for. -/
theorem perform (h : Wound true s) (hs : s.scanning = false) {op : Op} (hop : s.Allows op = true)
    (ha : ∀ c ∈ callsWithin set 0 s op, c.1.Allows c.2 = true) :
    (∀ c ∈ callsWithin set 0 s op, SoundCall set c) ∧
      (¬ Restarts set s op → Wound true (Timing.perform set s op).1) ∧
      (Restarts set s op → ¬ (Timing.perform set s op).1.Sound) := by
  have within {t : State ω ρ} (ht : s.asking? op = some t) :
      callsWithin set 0 s op = calls (step set 0) t.enter (during set t) := by
    rw [callsWithin, begins?_of_idle hs, ht]
  cases op with
  | start => exact ⟨List.forall_mem_nil _, fun _ => h.start, False.elim⟩
  | stop => exact ⟨List.forall_mem_nil _, fun _ => h.stop, False.elim⟩
  | notify m => exact ⟨List.forall_mem_nil _, fun _ => h.notify m, False.elim⟩
  | trigger =>
    rw [within rfl] at ha ⊢
    obtain ⟨hw, -, hcalls⟩ := h.scan hs ha
    exact ⟨hcalls, fun _ => hw, False.elim⟩
  | fire i =>
    obtain ⟨k, hi⟩ := allows_fire_iff.1 hop
    have ht : s.timers[i]? = some ⟨k, .pending⟩ := hi
    have hp : (Timing.perform set s (.fire i)).1 = (Timing.scan set (step set 0) (s.expire i k)).1.resume k :=
      congrArg Prod.fst (fire_of_some (Timing.scan set (step set 0)) ht)
    rw [within (t := s.expire i k) (by simp [asking?, ht])] at ha ⊢
    rw [hp]
    have hidle : (s.expire i k).scanning = false := (s.alike_expire i k).scanning.trans hs
    cases k with
    | tick =>
      obtain ⟨hw, hr, hcalls⟩ := (h.markFired hi).scan hidle ha
      rw [Bool.false_or] at hw
      refine ⟨hcalls, fun hn => ?_, ?_⟩
      · cases hstop : decide (.stop ∈ during set (s.markFired i)) with
        | false =>
          rw [hstop] at hw
          exact hw.rearm
        | true =>
          have hstill : (Timing.scan set (step set 0) (s.markFired i)).1.running = false := by
            refine Bool.eq_false_iff.2 fun hrun => hn ⟨⟨_, ht, rfl⟩, of_decide_eq_true hstop, ?_⟩
            rwa [← hr]
          rw [hstop] at hw
          simpa [resume, State.rearm, expire, hstill] using hw
      · rintro ⟨-, hstop, hrun⟩
        rw [decide_eq_true hstop] at hw
        exact hw.not_sound_rearm (hr.trans hrun)
    | debounce =>
      obtain ⟨hw, -, hcalls⟩ := (h.forget hi).scan hidle ha
      refine ⟨hcalls, fun _ => hw, ?_⟩
      rintro ⟨⟨x, hx, hk⟩, -⟩
      cases hx.symm.trans ht
      cases hk

end State.Wound

theorem wound_initial (w : ω) : State.Wound true (State.initial w : State ω ρ) :=
  ⟨fun i => by simp [State.initial, State.Pending], (nomatch ·),
    fun i hi => by simp [State.initial, State.Pending] at hi, fun _ => (nomatch ·), (nomatch ·)⟩

/-- A run from a state in which `stop` can cancel what is waited for. -/
theorem soundCalls_iff (h : State.Wound true s) (hs : s.scanning = false) {ops : List Op}
    (ha : ∀ c ∈ allCalls set s ops, c.1.Allows c.2 = true) :
    (∀ c ∈ allCalls set s ops, SoundCall set c) ↔ ∀ c ∈ calls (perform set) s ops, ¬ Restarts set c.1 c.2 := by
  induction ops generalizing s with
  | nil => simp [allCalls, calls]
  | cons op ops ih =>
    have hall : allCalls set s (op :: ops) =
        (s, op) :: (callsWithin set 0 s op ++ allCalls set (perform set s op).1 ops) := by
      simp [allCalls, calls]
    simp only [hall, List.forall_mem_cons, List.forall_mem_append, calls] at ha ⊢
    obtain ⟨hop, hwithin, hops⟩ := ha
    obtain ⟨hcalls, hgood, hbad⟩ := h.perform hs hop hwithin
    by_cases hr : Restarts set s op
    · exact iff_of_false (fun hall => hbad hr hall.1.after) fun hnone => hnone.1 hr
    · have hw := hgood hr
      have hfirst : SoundCall set (s, op) := by
        refine ⟨h.sound, hw.sound, fun i hi => ?_⟩
        obtain rfl : op = .fire i := hi
        obtain ⟨k, hk⟩ := State.allows_fire_iff.1 hop
        exact h.running_of_pending hk
      rw [ih hw (scanning_perform hs op) hops, and_iff_right hfirst, and_iff_right hcalls, and_iff_right hr]

/-- In every run that fires only timers that are waited for, all is well at each call, those from within scans
included, if and only if no tick's scan stops the scheduler and leaves it running: at most one tick is waited for, none
and no other timer is while the scheduler is stopped, and so no timer begins a scan between a stop and the next
start. -/
theorem soundCalls_initial_iff (set : Setting ω ρ ε) (w : ω) (ops : List Op)
    (ha : ∀ c ∈ allCalls set (State.initial w) ops, c.1.Allows c.2 = true) :
    (∀ c ∈ allCalls set (State.initial w) ops, SoundCall set c) ↔
      ∀ c ∈ calls (perform set) (State.initial w) ops, ¬ Restarts set c.1 c.2 :=
  soundCalls_iff (wound_initial w) rfl ha

/-- The first scan restarts the scheduler. -/
def restarting : Setting Unit Nat Unit where
  plan n _ := ⟨if n = 1 then [.stop, .start] else [], fun _ w => (.ok n, w)⟩
  sink := none

/-- The scheduler is started, its tick restarts it, it is stopped, and a tick is still waited for and scans. -/
theorem not_soundCalls_restarting :
    let ops : List Op := [.start, .fire 0, .stop, .fire 1]
    (∀ c ∈ allCalls restarting (State.initial ()) ops, c.1.Allows c.2 = true) ∧
      ¬ ∀ c ∈ allCalls restarting (State.initial ()) ops, SoundCall restarting c := by
  intro ops
  have ha : ∀ c ∈ allCalls restarting (State.initial ()) ops, c.1.Allows c.2 = true := by decide
  refine ⟨ha, ?_⟩
  rw [soundCalls_initial_iff restarting () ops ha]
  intro hn
  exact hn ((perform restarting (State.initial ()) .start).1, .fire 0) (List.mem_cons_of_mem _ List.mem_cons_self)
    ⟨⟨⟨.tick, .pending⟩, rfl, rfl⟩, by decide, by decide⟩

end StylePrune.Sampling.Timing
