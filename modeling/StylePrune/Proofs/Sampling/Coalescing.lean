import StylePrune.Proofs.Sampling.Ticks

/-!
Changes of the page coalesce. However many of them come one after another, and whatever timers fire in between, at most
one timer of a change is waited for: that of the change which was accepted last, and the next one or a stop cancels it.
-/

set_option autoImplicit false

namespace StylePrune.Sampling.Timing

variable {ω ρ ε : Type}

/-! ## What a run passes through -/

/-- A state that a run passes through, and the operation that is called in it, if one is. -/
abbrev Moment (ω ρ : Type) := State ω ρ × Option Op

/-- The timer that a moment's call creates for a change of the page, if it accepts one. -/
def accepted? (x : Moment ω ρ) : Option Nat :=
  match x.2 with
  | some (.notify m) => if (x.1.notify m).2 then some x.1.timers.length else none
  | _ => none

/-- The timer of the change that was accepted last. -/
def latest? : List (Moment ω ρ) → Option Nat
  | [] => none
  | x :: xs => (latest? xs).or (accepted? x)

/-- A call from within a scan, and where it asks for another scan in vain. -/
def glance (c : State ω ρ × Op) : List (Moment ω ρ) := (c.1, some c.2) :: (c.1.asking? c.2).toList.map (·, none)

/-- What an operation called from outside passes through: the state that it finds, the one in which it asks for a scan,
the calls from within that scan, and the states before and after the scan's end. -/
def course (set : Setting ω ρ ε) (s : State ω ρ) (op : Op) : List (Moment ω ρ) :=
  (s, some op) :: match s.asking? op with
  | none => []
  | some t => (t, none) :: (callsWithin set 0 s op).flatMap glance ++
      [((inside set 0 t).1, none), ((scan set (step set 0) t).1, none)]

/-- What a run passes through, up to the state that it leaves. -/
def history (set : Setting ω ρ ε) (s : State ω ρ) (ops : List Op) : List (Moment ω ρ) :=
  (calls (perform set) s ops).flatMap (fun c => course set c.1 c.2) ++ [((runAll (perform set) s ops).1, none)]

theorem latest?_append (xs ys : List (Moment ω ρ)) : latest? (xs ++ ys) = (latest? ys).or (latest? xs) := by
  induction xs with
  | nil => simp [latest?]
  | cons x xs ih => simp [latest?, ih, Option.or_assoc]

namespace State

variable {s t : State ω ρ} {i j : Nat} {o : Option Nat}

/-! ## One timer at most -/

/-- The timer of a change that is waited for is the one that would be cancelled, the scheduler runs, and the timer is
`o`'s. -/
structure Single (o : Option Nat) (s : State ω ρ) : Prop where
  pending : ∀ i, s.Pending .debounce i ↔ s.debounce? = some i
  running : ∀ i, s.debounce? = some i → s.running = true
  latest : ∀ i, s.debounce? = some i → o = some i

namespace Single

theorem congr (h : Single o s) (ht : t.timers = s.timers) (hr : t.running = s.running)
    (hd : t.debounce? = s.debounce?) : Single o t := by
  refine ⟨fun i => ?_, fun i hi => ?_, fun i hi => ?_⟩
  · rw [Pending, ht, hd]
    exact h.pending i
  · rw [hr]
    exact h.running i (hd ▸ hi)
  · exact h.latest i (hd ▸ hi)

theorem none (hp : ∀ i, ¬ s.Pending .debounce i) (hd : s.debounce? = Option.none) : Single o s :=
  ⟨fun i => iff_of_false (hp i) (by simp [hd]), fun i hi => by simp [hd] at hi, fun i hi => by simp [hd] at hi⟩

theorem armTick (h : Single o s) : Single o s.armTick := by
  refine ⟨fun i => (pending_addTimer s .tick).trans ?_, h.running, h.latest⟩
  simpa [State.armTick, addTimer] using h.pending i

theorem start (h : Single o s) : Single o s.start := by
  unfold State.start
  split
  · exact h
  · have hs : Single o { s with running := true } := ⟨h.pending, fun _ _ => rfl, h.latest⟩
    exact hs.armTick

theorem stop (h : Single o s) : Single o s.stop := by
  refine none (fun i hi => ?_) rfl
  have hc : ((s.cancel s.tick?).cancel s.debounce?).Pending .debounce i := hi
  rw [pending_cancel, pending_cancel] at hc
  exact hc.2 ((h.pending i).1 hc.1.1)

theorem notify (h : Single o s) (m : Mutation) :
    Single ((accepted? (s, some (.notify m))).or o) (s.notify m).1 := by
  simp only [accepted?]
  unfold State.notify
  split
  · rename_i hm
    have hr : s.running = true := (Bool.and_eq_true_iff.1 hm).2
    refine ⟨fun i => ?_, fun i _ => (running_cancel s s.debounce?).trans hr, fun i hi => ?_⟩
    · refine (pending_addTimer _ _).trans ?_
      rw [pending_cancel, length_cancel, h.pending]
      simp [eq_comm]
    · simpa using hi
  · simpa using h

/-- A timer's time is up. One that is not waited for leaves the one that is. -/
theorem expire (h : Single o s) {x : Timer} (hx : s.timers[i]? = some x) : Single o (s.expire i x.kind) := by
  obtain ⟨k, st⟩ := x
  cases k with
  | tick =>
    refine ⟨fun j => ?_, h.running, h.latest⟩
    have hij : s.Pending .debounce j → i ≠ j := by
      rintro hj rfl
      simpa using hx.symm.trans hj
    exact (pending_markFired.trans (and_iff_left_of_imp hij)).trans (h.pending j)
  | debounce =>
    simp only [State.expire, State.forget]
    split
    · rename_i hd
      refine none (fun j hj => ?_) rfl
      obtain ⟨hj, hij⟩ := pending_markFired.1 hj
      exact hij (Option.some.inj (Eq.trans (Eq.symm hd) ((h.pending j).1 hj)))
    · rename_i hd
      refine ⟨fun j => ?_, h.running, h.latest⟩
      have hij : s.Pending .debounce j → i ≠ j := by
        rintro hj rfl
        exact hd ((h.pending i).1 hj)
      exact (pending_markFired.trans (and_iff_left_of_imp hij)).trans (h.pending j)

theorem resume (h : Single o s) (k : TimerKind) : Single o (s.resume k) := by
  cases k with
  | debounce => exact h
  | tick =>
    simp only [State.resume, State.rearm]
    split
    · exact h.armTick
    · exact h

theorem asking (h : Single o s) {op : Op} (ht : s.asking? op = some t) : Single o t := by
  cases op with
  | trigger => exact Option.some.inj ht ▸ h
  | fire i =>
    obtain ⟨x, hx, rfl⟩ := Option.map_eq_some_iff.1 ht
    exact h.expire hx
  | _ => cases ht

theorem attend (h : Single o s) (op : Op) :
    Single ((accepted? (s, some op)).or o) (s.attend (ε := ε) op).1 := by
  cases op with
  | start => exact h.start
  | stop => exact h.stop
  | trigger => exact h
  | notify m => exact h.notify m
  | fire i =>
    rw [State.attend]
    split
    · exact h
    · exact (h.expire ‹_›).resume _

end Single

/-! ## Cancelling -/

theorem cancel_of_pending {k : TimerKind} (h : s.Pending k i) :
    (s.cancel (some i)).timers[i]? = some ⟨k, .cancelled⟩ := by
  have hi : s.timers[i]? = some ⟨k, .pending⟩ := h
  simp [cancel, hi]

/-- A timer that is not waited for cannot be cancelled. -/
theorem cancel_of_ne_pending {x : Timer} (h : s.timers[i]? = some x) (hx : x.state ≠ .pending) (o : Option Nat) :
    (s.cancel o).timers[i]? = some x := by
  cases o with
  | none => exact h
  | some j =>
    simp only [cancel, List.getElem?_modify, h]
    split <;> simp [hx]

theorem addTimer_of_some {x : Timer} (h : s.timers[i]? = some x) (k : TimerKind) :
    (s.addTimer k).timers[i]? = some x :=
  (List.getElem?_append_left (List.getElem?_eq_some_iff.1 h).1).trans h

/-- Timer `i` is waited for, and a stop or the next relevant change cancels it. -/
structure Held (set : Setting ω ρ ε) (s : State ω ρ) (i : Nat) : Prop where
  pending : s.Pending .debounce i
  stop : (perform set s .stop).1.timers[i]? = some ⟨.debounce, .cancelled⟩
  notify : ∀ m : Mutation, m.isRelevant = true →
    (perform set s (.notify m)).1.timers[i]? = some ⟨.debounce, .cancelled⟩

theorem Single.held (h : Single o s) (hi : s.Pending .debounce i) (set : Setting ω ρ ε) : Held set s i := by
  have hd : s.debounce? = some i := (h.pending i).1 hi
  refine ⟨hi, ?_, fun m hm => ?_⟩
  · have hs : (perform set s .stop).1.timers = ((s.cancel s.tick?).cancel (some i)).timers := by
      rw [← hd]
      rfl
    rw [hs]
    by_cases ht : s.tick? = some i
    · rw [ht]
      exact cancel_of_ne_pending (cancel_of_pending hi) (by simp) _
    · exact cancel_of_pending ((pending_cancel _).2 ⟨hi, ht⟩)
  · have hs : (perform set s (.notify m)).1.timers = ((s.cancel (some i)).addTimer .debounce).timers := by
      rw [← hd]
      change (s.notify m).1.timers = _
      rw [State.notify, if_pos (by simp [hm, h.running i hd])]
    rw [hs]
    exact addTimer_of_some (cancel_of_pending hi) _

/-- A timer of a change has fired. -/
def Spent (s : State ω ρ) (i : Nat) : Prop := s.timers[i]? = some ⟨.debounce, .fired⟩

theorem spent_fire (h : s.Pending .debounce j) : Spent (s.attend (ε := ε) (.fire j)).1 j := by
  have hj : s.timers[j]? = some ⟨.debounce, .pending⟩ := h
  have hf : (s.markFired j).timers[j]? = some ⟨.debounce, .fired⟩ := by simp [markFired, hj]
  simp only [State.attend, hj, State.expire, State.forget, State.resume, Spent]
  split <;> exact hf

/-- What has fired is never waited for again. -/
theorem Spent.attend (h : Spent s j) (op : Op) : Spent (s.attend (ε := ε) op).1 j := by
  have hne : (Timer.mk .debounce .fired).state ≠ .pending := by simp
  have tick (u : State ω ρ) (hu : Spent u j) : Spent u.armTick j := addTimer_of_some hu .tick
  cases op with
  | start =>
    simp only [State.attend, State.start]
    split
    · exact h
    · exact tick { s with running := true } h
  | stop => exact cancel_of_ne_pending (cancel_of_ne_pending h hne _) hne _
  | trigger => exact h
  | notify m =>
    simp only [State.attend, State.notify]
    split
    · exact addTimer_of_some (cancel_of_ne_pending h hne _) _
    · exact h
  | fire i =>
    rw [State.attend]
    split
    · exact h
    · rename_i x hx
      have hf : Spent (s.markFired i) j := by
        have hj : s.timers[j]? = some ⟨.debounce, .fired⟩ := h
        simp only [Spent, markFired, List.getElem?_modify, hj]
        split <;> rfl
      cases x.kind with
      | tick =>
        simp only [State.expire, State.resume]
        unfold State.rearm
        split
        · exact tick _ hf
        · exact hf
      | debounce =>
        simp only [State.expire, State.resume, State.forget]
        split <;> exact hf

/-- Only a stop, the next accepted change and the timer itself make the scheduler forget the timer. -/
theorem debounce?_attend (h : s.debounce? = some j) {op : Op} (hs : op ≠ .stop)
    (ha : accepted? (s, some op) = Option.none) (hf : op ≠ .fire j) :
    (s.attend (ε := ε) op).1.debounce? = some j := by
  cases op with
  | start =>
    simp only [State.attend, State.start]
    split <;> exact h
  | stop => exact absurd rfl hs
  | trigger => exact h
  | notify m =>
    have hr : (s.notify m).2 = false := by simpa [accepted?] using ha
    simp only [State.attend, State.notify] at hr ⊢
    split
    · rename_i hm
      simp [hm] at hr
    · exact h
  | fire i =>
    have hij : j ≠ i := fun he => hf (he ▸ rfl)
    have hforget : ((s.markFired i).forget i).debounce? = some j := by
      rw [State.forget, if_neg]
      · exact h
      · exact fun hd => hij (Option.some.inj (h.symm.trans hd))
    rw [State.attend]
    split
    · exact h
    · rename_i x hx
      cases x.kind with
      | tick =>
        simp only [State.expire, State.resume]
        unfold State.rearm
        split <;> exact h
      | debounce => exact hforget

end State

/-! ## Runs -/

/-- At each of some moments there is one timer at most, that of the change accepted last, `o` at first. -/
def Singles (o : Option Nat) : List (Moment ω ρ) → Prop
  | [] => True
  | x :: xs => x.1.Single o ∧ Singles ((accepted? x).or o) xs

theorem singles_append {o : Option Nat} {xs ys : List (Moment ω ρ)} :
    Singles o (xs ++ ys) ↔ Singles o xs ∧ Singles ((latest? xs).or o) ys := by
  induction xs generalizing o with
  | nil => simp [Singles, latest?]
  | cons x xs ih => rw [List.cons_append, Singles, Singles, ih, latest?, Option.or_assoc, and_assoc]

variable (set : Setting ω ρ ε) {s t : State ω ρ} {o : Option Nat} {i j : Nat}

theorem accepted?_of_asking {op : Op} (ht : s.asking? op = some t) : accepted? (s, some op) = none := by
  cases op with
  | trigger | fire => rfl
  | _ => cases ht

theorem latest?_glance (c : State ω ρ × Op) : latest? (glance c) = accepted? (c.1, some c.2) := by
  cases h : c.1.asking? c.2 <;> simp [glance, h, latest?, accepted?]

theorem singles_glance (h : s.Single o) (op : Op) : Singles o (glance (s, op)) := by
  cases ht : s.asking? op with
  | none => simpa [glance, ht, Singles] using h
  | some t => simpa [glance, ht, Singles, accepted?_of_asking ht] using ⟨h, h.asking ht⟩

/-- The calls from within a scan. -/
theorem singles_runAll (h : s.Single o) (hs : s.scanning = true) (ops : List Op) :
    let ms := (calls (step set 0) s ops).flatMap glance
    Singles o ms ∧ (runAll (step set 0) s ops).1.Single ((latest? ms).or o) := by
  induction ops generalizing s o with
  | nil => exact ⟨trivial, h⟩
  | cons op ops ih =>
    have hstep : (step set 0 s op).1.Single ((accepted? (s, some op)).or o) := by
      rw [step_of_scanning set 0 hs]
      exact h.attend op
    obtain ⟨hms, hrun⟩ := ih hstep ((alike_step 0 hs op).scanning.trans hs)
    simp only [calls, List.flatMap_cons, singles_append, latest?_append, latest?_glance, Option.or_assoc]
    exact ⟨⟨singles_glance h op, hms⟩, hrun⟩

/-- The calls from within a scan that begins in `t`, and what it leaves. -/
theorem singles_scan (h : t.Single o) (hs : t.scanning = false) :
    let ms := (calls (step set 0) t.enter (during set t)).flatMap glance
    Singles o ms ∧ (inside set 0 t).1.Single ((latest? ms).or o) ∧
      (scan set (step set 0) t).1.Single ((latest? ms).or o) := by
  have he : t.enter.Single o := h.congr rfl rfl rfl
  obtain ⟨hms, hin⟩ := singles_runAll set he rfl (during set t)
  obtain ⟨w, hw⟩ := scan_spec set 0 hs
  rw [hw]
  exact ⟨hms, hin, hin.congr rfl rfl rfl⟩

/-- One operation called from outside. -/
theorem singles_course (h : s.Single o) (hs : s.scanning = false) (op : Op) :
    Singles o (course set s op) ∧ (perform set s op).1.Single ((latest? (course set s op)).or o) := by
  cases ht : s.asking? op with
  | none =>
    have hp := h.attend (ε := ε) op
    rw [← perform_of_asking_none ht] at hp
    simpa [course, ht, Singles, latest?] using ⟨h, hp⟩
  | some t =>
    have hst : t.Single o := h.asking ht
    obtain ⟨hms, hin, hscan⟩ := singles_scan set hst ((State.alike_of_asking? ht).scanning.trans hs)
    rw [← callsWithin_of_asking hs ht] at hms hin hscan
    obtain ⟨k, hk⟩ := perform_of_asking set ht
    have hquiet (x : State ω ρ) : accepted? (x, none) = none := rfl
    simp only [course, ht, Singles, singles_append, latest?, latest?_append, accepted?_of_asking ht, hquiet,
      Option.none_or, Option.or_none, List.cons_append]
    exact ⟨⟨h, hst, hms, hin, hscan, trivial⟩, hk ▸ hscan.resume k⟩

/-- A run. -/
theorem singles_history (h : s.Single o) (hs : s.scanning = false) (ops : List Op) :
    Singles o (history set s ops) := by
  induction ops generalizing s o with
  | nil => exact ⟨h, trivial⟩
  | cons op ops ih =>
    obtain ⟨hcourse, hnext⟩ := singles_course set h hs op
    have hrest := ih hnext (scanning_perform hs op)
    have he : history set s (op :: ops) = course set s op ++ history set (perform set s op).1 ops := by
      simp [history, calls, runAll]
    rw [he]
    exact singles_append.2 ⟨hcourse, hrest⟩

theorem spent_runAll (h : s.Spent j) (hs : s.scanning = true) (ops : List Op) :
    (runAll (step set 0) s ops).1.Spent j := by
  refine (runAll_keeps (P := fun s => s.Spent j ∧ s.scanning = true) (fun u op hu => ⟨?_, ?_⟩) ⟨h, hs⟩ ops).1
  · rw [step_of_scanning set 0 hu.2]
    exact hu.1.attend op
  · exact (alike_step 0 hu.2 op).scanning.trans hu.2

/-- Calls of a scan that neither stop the scheduler nor have a change accepted: the timer is still the one that would be
cancelled, or one of them fired it. -/
theorem debounce?_runAll (h : s.Single o) (hs : s.scanning = true) (hd : s.debounce? = some j) {ops : List Op}
    (hq : ∀ c ∈ calls (step set 0) s ops, c.2 ≠ .stop ∧ accepted? (c.1, some c.2) = none) :
    (runAll (step set 0) s ops).1.debounce? = some j ∨
      .fire j ∈ (calls (step set 0) s ops).map Prod.snd ∧ (runAll (step set 0) s ops).1.Spent j := by
  induction ops generalizing s with
  | nil => exact .inl hd
  | cons op ops ih =>
    obtain ⟨⟨hstop, hquiet⟩, hops⟩ := List.forall_mem_cons.1 hq
    have hstep := step_of_scanning set 0 hs op
    have hs' : (step set 0 s op).1.scanning = true := (alike_step 0 hs op).scanning.trans hs
    by_cases hf : op = .fire j
    · refine .inr ⟨by simp [calls, hf], spent_runAll set ?_ hs' ops⟩
      rw [hstep, hf]
      exact State.spent_fire ((h.pending j).2 hd)
    · have hsingle : (step set 0 s op).1.Single o := by
        have := h.attend (ε := ε) op
        rwa [hquiet, Option.none_or, ← hstep] at this
      have hkept : (step set 0 s op).1.debounce? = some j := by
        rw [hstep]
        exact State.debounce?_attend hd hstop hquiet hf
      exact (ih hsingle hs' hkept hops).imp_right fun hlater => ⟨List.mem_cons_of_mem _ hlater.1, hlater.2⟩

/-- A timer of a change that is not waited for fires. Unless its scan stops the scheduler, has a change accepted or
fires it, the timer that is waited for stays so, and can be cancelled as before. -/
theorem held_fire (h : s.Single o) {st : TimerState} (hx : s.timers[i]? = some ⟨.debounce, st⟩) (hst : st ≠ .pending)
    (hj : s.Pending .debounce j)
    (hq : ∀ c ∈ callsWithin set 0 s (.fire i), c.2 ≠ .stop ∧ accepted? (c.1, some c.2) = none) :
    (perform set s (.fire i)).1.Held set j ∨
      .fire j ∈ (callsWithin set 0 s (.fire i)).map Prod.snd ∧ (perform set s (.fire i)).1.Spent j := by
  have hd : s.debounce? = some j := (h.pending j).1 hj
  have hij : Op.fire i ≠ .fire j := by
    rintro ⟨⟩
    have hx' : s.timers[i]? = some ⟨.debounce, .pending⟩ := hj
    simp [hx'] at hx
    exact hst hx.symm
  have hkept := State.debounce?_attend (ε := ε) hd (by simp) rfl hij
  have hsingle := h.attend (ε := ε) (.fire i)
  cases hs : s.scanning with
  | true =>
    have hp : (perform set s (.fire i)) = s.attend (.fire i) := step_of_scanning set 1 hs _
    rw [hp]
    exact .inl (hsingle.held ((hsingle.pending j).2 hkept) set)
  | false =>
    have ht : s.asking? (.fire i) = some (s.expire i .debounce) := by simp [State.asking?, hx]
    have hp : perform set s (.fire i) = ((scan set (step set 0) (s.expire i .debounce)).1, .done) :=
      fire_of_some (scan set (step set 0)) hx
    have hexpire : s.expire i .debounce = (s.attend (ε := ε) (.fire i)).1 := by simp [State.attend, hx, State.resume]
    rw [← hexpire] at hkept hsingle
    have hs' : (s.expire i .debounce).scanning = false := (s.alike_expire i .debounce).scanning.trans hs
    obtain ⟨-, -, hend⟩ := singles_scan set hsingle hs'
    obtain ⟨w, hw⟩ := scan_spec set 0 hs'
    rw [callsWithin_of_asking hs ht] at hq ⊢
    rw [hp]
    have he : (s.expire i .debounce).enter.Single o := hsingle.congr rfl rfl rfl
    rcases debounce?_runAll set he rfl hkept hq with hd' | ⟨hmem, hspent⟩
    · refine .inl (hend.held ((hend.pending j).2 ?_) set)
      rw [hw]
      exact hd'
    · refine .inr ⟨hmem, ?_⟩
      rw [hw]
      exact hspent

theorem single_initial (w : ω) : (State.initial w : State ω ρ).Single none :=
  .none (fun i hi => by simp [State.initial, State.Pending] at hi) rfl

/-- Changes of the page coalesce into one timer, at every moment of every run, within scans too, whatever timers fire and
in which state they are. At most one timer of a change is waited for. It is the one of the change that was accepted
last, the scheduler runs, and a stop or the next relevant change cancels it. When another timer of a change fires, one
that fired before or was cancelled, nothing of that changes but by what the scan calls: if that stops nothing and has no
change accepted, the timer is still waited for and can be cancelled as before, or the scan has fired it. -/
theorem mutations_coalesce (set : Setting ω ρ ε) (w : ω) (ops : List Op) {past rest : List (Moment ω ρ)}
    {x : Moment ω ρ} (h : history set (State.initial w) ops = past ++ x :: rest) :
    (∀ i j, x.1.Pending .debounce i → x.1.Pending .debounce j → i = j) ∧
      (∀ i, x.1.Pending .debounce i → latest? past = some i ∧ x.1.running = true ∧ x.1.Held set i) ∧
      ∀ i st j, x.1.timers[i]? = some ⟨.debounce, st⟩ → st ≠ .pending → x.1.Pending .debounce j →
        (∀ c ∈ callsWithin set 0 x.1 (.fire i), c.2 ≠ .stop ∧ accepted? (c.1, some c.2) = none) →
        (perform set x.1 (.fire i)).1.Held set j ∨
          .fire j ∈ (callsWithin set 0 x.1 (.fire i)).map Prod.snd ∧ (perform set x.1 (.fire i)).1.Spent j := by
  have hall := singles_history set (single_initial w) rfl ops
  rw [h, singles_append, Option.or_none] at hall
  have hx : x.1.Single (latest? past) := hall.2.1
  refine ⟨fun i j hi hj => ?_, fun i hi => ?_, fun i st j hi hst hj hq => held_fire set hx hi hst hj hq⟩
  · exact Option.some.inj (((hx.pending i).1 hi).symm.trans ((hx.pending j).1 hj))
  · have hd := (hx.pending i).1 hi
    exact ⟨hx.latest i hd, hx.running i hd, hx.held hi set⟩

/-- Scans start the scheduler, which runs, tell it of a change that does not matter, and fire its tick. -/
def restless : Setting Unit Nat Unit where
  plan n _ := ⟨[.start, .notify ⟨"characterData", none⟩, .fire 0], fun _ w => (.ok n, w)⟩
  sink := none

def added : Mutation := ⟨"childList", none⟩

/-- The second of two changes cancels the timer of the first, which fires all the same. -/
theorem mutations_coalesce_restless :
    let ops : List Op := [.start, .notify added, .notify added]
    let s := (runAll (perform restless) (State.initial ()) ops).1
    let past := (calls (perform restless) (State.initial ()) ops).flatMap fun c => course restless c.1 c.2
    history restless (State.initial ()) ops = past ++ [(s, none)] ∧ s.timers[1]? = some ⟨.debounce, .cancelled⟩ ∧
      s.Pending .debounce 2 ∧ latest? past = some 2 ∧ (callsWithin restless 0 s (.fire 1)).length = 3 ∧
      (perform restless s (.fire 1)).1.Held restless 2 := by
  intro ops s past
  have h : history restless (State.initial ()) ops = past ++ [(s, none)] := rfl
  have hx : s.timers[1]? = some ⟨.debounce, .cancelled⟩ := rfl
  have hp : s.Pending .debounce 2 := rfl
  obtain ⟨-, hlatest, hstale⟩ := mutations_coalesce restless () ops h
  have hheld := hstale 1 .cancelled 2 hx (by decide) hp (by decide)
  exact ⟨h, hx, hp, (hlatest 2 hp).1, rfl, hheld.resolve_right fun hf => absurd hf.1 (by decide)⟩

end StylePrune.Sampling.Timing
