import StylePrune.Proofs.Sampling.Nesting

/-!
The guard that keeps scans from overlapping. It is set while a scan is under way and at no other time, whatever the
scan calls and however it ends, and so the last result and the results handed on are those of the scans that returned
one, in order.
-/

set_option autoImplicit false

namespace StylePrune.Sampling.Timing

variable {ω ρ ε : Type} {set : Setting ω ρ ε} {s : State ω ρ} {op : Op}

/-- What the scan returns that an operation begins, if it begins one and that returns. -/
def value? (set : Setting ω ρ ε) (s : State ω ρ) (op : Op) : Option ρ :=
  (s.begins? op).bind fun t => (ended set 0 t).1.toOption

/-- What the scans of a run return, in order. -/
def values (set : Setting ω ρ ε) (s : State ω ρ) (ops : List Op) : List ρ :=
  (calls (perform set) s ops).filterMap fun c => value? set c.1 c.2

theorem values_cons (set : Setting ω ρ ε) (s : State ω ρ) (op : Op) (ops : List Op) :
    values set s (op :: ops) = (value? set s op).toList ++ values set (perform set s op).1 ops := by
  cases h : value? set s op <;> simp [values, calls, h]

/-- No scan is under way, and what is known are the values of the scans so far. -/
structure Idle (set : Setting ω ρ ε) (rs : List ρ) (s : State ω ρ) : Prop where
  scanning : s.scanning = false
  last : s.last = rs.getLast?
  delivered : s.delivered = if set.sink.isSome then rs else []

theorem Idle.alike {rs : List ρ} {t : State ω ρ} (hi : Idle set rs s) (h : s.Alike t) : Idle set rs t :=
  ⟨h.scanning.trans hi.scanning, h.last.trans hi.last, h.delivered.trans hi.delivered⟩

theorem Idle.scan {rs : List ρ} (hi : Idle set rs s) :
    Idle set (rs ++ (ended set 0 s).1.toOption.toList) (scan set (step set 0) s).1 := by
  obtain ⟨w, hw⟩ := scan_spec set 0 hi.scanning
  rw [hw]
  refine ⟨rfl, ?_, ?_⟩
  · cases (ended set 0 s).1.toOption <;> simp [hi.last]
  · cases hs : set.sink.isSome <;> simp [hi.delivered, hs]

/-- One operation: the way is clear again, and a value that its scan returned comes last. -/
theorem Idle.perform {rs : List ρ} (hi : Idle set rs s) (op : Op) :
    Idle set (rs ++ (value? set s op).toList) (perform set s op).1 := by
  rw [value?, State.begins?_of_idle hi.scanning]
  obtain ⟨ha, halike⟩ | ⟨t, ha, halike⟩ := perform_cases set s op
  · simpa [ha] using hi.alike halike
  · rw [ha]
    exact (hi.alike (State.alike_of_asking? ha)).scan.alike halike

theorem Idle.runAll {rs : List ρ} (hi : Idle set rs s) (ops : List Op) :
    Idle set (rs ++ values set s ops) (runAll (Timing.perform set) s ops).1 := by
  induction ops generalizing s rs with
  | nil => simpa [values, calls, Timing.runAll] using hi
  | cons op ops ih =>
    rw [values_cons, ← List.append_assoc]
    exact ih (hi.perform op)

theorem begun_perform (h : s.scanning = false) (op : Op) :
    (perform set s op).1.begun = s.begun + if (s.asking? op).isSome then 1 else 0 := by
  obtain ⟨ha, halike⟩ | ⟨t, ha, halike⟩ := perform_cases set s op
  · simp [ha, halike.begun]
  · have ht := State.alike_of_asking? ha
    obtain ⟨w, hw⟩ := scan_spec set 0 (ht.scanning.trans h)
    have hin : (inside set 0 t).1.begun = t.begun + 1 := (alike_inside 0).begun
    rw [halike.begun, hw, ha]
    simp [hin, ht.begun]

/-- Scans exclude each other, over every run of operations, whatever scans call, however they end and whatever becomes
of what takes their results. Between operations the way is clear, so that the next trigger begins a scan; the last
result is that of the scan which returned one last, and each such result was handed on once. While a scan is under way
none begins, however deep scans might nest, and a trigger changes nothing. -/
theorem scans_exclude (set : Setting ω ρ ε) (w : ω) (ops : List Op) :
    let s := (runAll (perform set) (State.initial w) ops).1
    let rs := values set (State.initial w) ops
    (s.scanning = false ∧ s.last = rs.getLast? ∧ s.delivered = if set.sink.isSome then rs else []) ∧
      (perform set s .trigger).1.begun = s.begun + 1 ∧
      ∀ op depth, step set (depth + 1) s op = perform set s op ∧ (perform set s op).1.begun ≤ s.begun + 1 ∧
        ∀ c ∈ callsWithin set depth s op,
          (c.1.scanning = true ∧ c.1.begun = s.begun + 1 ∧ c.1.last = s.last ∧ c.1.delivered = s.delivered) ∧
            (step set depth c.1 c.2).1.begun = c.1.begun ∧ step set depth c.1 .trigger = (c.1, .dropped) := by
  intro s rs
  have hi : Idle set rs s := by
    have h₀ : Idle set [] (State.initial w : State ω ρ) := ⟨rfl, rfl, by simp [State.initial]⟩
    exact h₀.runAll ops
  refine ⟨⟨hi.scanning, hi.last, hi.delivered⟩, by simp [begun_perform hi.scanning, State.asking?], fun op depth => ?_⟩
  refine ⟨step_eq_perform depth s op, ?_, fun c hc => ?_⟩
  · rw [begun_perform hi.scanning]
    split <;> omega
  · unfold callsWithin at hc
    split at hc
    · cases hc
    · rename_i t ht
      rw [State.begins?_of_idle hi.scanning] at ht
      have hst := State.alike_of_asking? ht
      have halike := alike_of_mem_calls depth _ c hc
      refine ⟨⟨halike.scanning, ?_, halike.last.trans hst.last, halike.delivered.trans hst.delivered⟩,
        (alike_step depth halike.scanning c.2).begun, step_of_scanning set depth halike.scanning .trigger⟩
      rw [halike.begun]
      exact congrArg (· + 1) hst.begun

end StylePrune.Sampling.Timing
