import StylePrune.Disk

/-!
Actions taken apart. One succeeds when every part succeeds on the disk that the part before it left, and
fails with its first part that does.
-/

set_option autoImplicit false

namespace StylePrune.Disk.Action

variable {ε ε' α β : Type}

theorem bind_of_ok {a : Action ε α} {d d₁ : Disk} {x : α} (h : a d = (.ok x, d₁)) (f : α → Action ε β) :
    (a >>= f) d = f x d₁ := by
  change (ExceptT.bindCont f (a d).1 : StateM Disk (Except ε β)) (a d).2 = _
  rw [h]
  rfl

theorem bind_of_error {a : Action ε α} {d d₁ : Disk} {e : ε} (h : a d = (.error e, d₁)) (f : α → Action ε β) :
    (a >>= f) d = (.error e, d₁) := by
  change (ExceptT.bindCont f (a d).1 : StateM Disk (Except ε β)) (a d).2 = _
  rw [h]
  rfl

theorem bind_eq_ok {a : Action ε α} {f : α → Action ε β} {d d' : Disk} {b : β}
    (h : (a >>= f) d = (.ok b, d')) : ∃ x d₁, a d = (.ok x, d₁) ∧ f x d₁ = (.ok b, d') := by
  cases ha : a d with
  | mk r d₁ =>
    cases r with
    | ok x => exact ⟨x, d₁, rfl, bind_of_ok ha f ▸ h⟩
    | error e =>
      rw [bind_of_error ha] at h
      cases (Prod.mk.inj h).1

theorem mapError_of_ok {a : Action ε α} {d d' : Disk} {x : α} (h : a d = (.ok x, d')) (g : ε → ε') :
    a.mapError g d = (.ok x, d') := by rw [mapError, h]

theorem mapError_of_error {a : Action ε α} {d d' : Disk} {e : ε} (h : a d = (.error e, d')) (g : ε → ε') :
    a.mapError g d = (.error (g e), d') := by rw [mapError, h]

theorem ask_of_ok {f : Disk → Except ε α} {d : Disk} {x : α} (h : f d = .ok x) : ask f d = (.ok x, d) := by
  rw [ask, h]

theorem bind_eq_error {a : Action ε α} {f : α → Action ε β} {d d' : Disk} {e : ε}
    (h : (a >>= f) d = (.error e, d')) :
    a d = (.error e, d') ∨ ∃ x d₁, a d = (.ok x, d₁) ∧ f x d₁ = (.error e, d') := by
  cases ha : a d with
  | mk r d₁ =>
    cases r with
    | ok x => exact .inr ⟨x, d₁, rfl, bind_of_ok ha f ▸ h⟩
    | error e' =>
      rw [bind_of_error ha] at h
      obtain ⟨he, rfl⟩ := Prod.mk.inj h
      exact .inl (by rw [Except.error.inj he])

theorem mapError_eq_ok {g : ε → ε'} {a : Action ε α} {d d' : Disk} {x : α}
    (h : a.mapError g d = (.ok x, d')) : a d = (.ok x, d') := by
  cases ha : a d with
  | mk r d₁ =>
    simp only [mapError, ha] at h
    cases r with
    | ok y =>
      obtain ⟨hx, rfl⟩ := Prod.mk.inj h
      rw [Except.ok.inj hx]
    | error e => cases (Prod.mk.inj h).1

theorem mapError_eq_error {g : ε → ε'} {a : Action ε α} {d d' : Disk} {e : ε'}
    (h : a.mapError g d = (.error e, d')) : ∃ e₀, a d = (.error e₀, d') ∧ g e₀ = e := by
  cases ha : a d with
  | mk r d₁ =>
    simp only [mapError, ha] at h
    cases r with
    | ok y => cases (Prod.mk.inj h).1
    | error e₀ =>
      obtain ⟨he, rfl⟩ := Prod.mk.inj h
      exact ⟨e₀, rfl, Except.error.inj he⟩

theorem ask_eq_ok {f : Disk → Except ε α} {d d' : Disk} {x : α} (h : ask f d = (.ok x, d')) :
    f d = .ok x ∧ d' = d := by
  obtain ⟨hf, rfl⟩ := Prod.mk.inj h
  exact ⟨hf, rfl⟩

/-- What holds of the disk before the action holds of it afterwards, however the action ends. -/
def Keeps (I : Disk → Prop) (a : Action ε α) : Prop := ∀ d, I d → I (a d).2

namespace Keeps

variable {I : Disk → Prop} {a : Action ε α} {f : α → Action ε β}

theorem bind_of {d : Disk} (ha : I (a d).2) (hf : ∀ x d₁, a d = (.ok x, d₁) → I d₁ → I (f x d₁).2) :
    I ((a >>= f) d).2 := by
  cases h : (a >>= f) d with
  | mk r d' =>
    cases r with
    | ok b =>
      obtain ⟨x, d₁, hx, hb⟩ := bind_eq_ok h
      rw [hx] at ha
      have := hf x d₁ hx ha
      rwa [hb] at this
    | error e =>
      rcases bind_eq_error h with hx | ⟨x, d₁, hx, hb⟩
      · rwa [hx] at ha
      · rw [hx] at ha
        have := hf x d₁ hx ha
        rwa [hb] at this

theorem bind (ha : Keeps I a) (hf : ∀ x, Keeps I (f x)) : Keeps I (a >>= f) :=
  fun d hd => bind_of (ha d hd) fun x d₁ _ h => hf x d₁ h

theorem bind_ask {g : Disk → Except ε α} (hf : ∀ d x, g d = .ok x → I d → I (f x d).2) : Keeps I (ask g >>= f) :=
  fun d hd => bind_of hd fun x d₁ hx h => by
    obtain ⟨hx, rfl⟩ := ask_eq_ok hx
    exact hf _ x hx h

theorem pure (x : α) : Keeps I (pure x : Action ε α) := fun _ h => h

theorem throw (e : ε) : Keeps I (throw e : Action ε α) := fun _ h => h

theorem mapError (g : ε → ε') (ha : Keeps I a) : Keeps I (a.mapError g) := fun d h => ha d h

theorem attempt (ha : Keeps I a) : Keeps I (a.attempt : Action ε' (Except ε α)) := fun d h => ha d h

end Keeps

end StylePrune.Disk.Action
