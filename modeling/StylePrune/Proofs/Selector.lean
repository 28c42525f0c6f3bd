import StylePrune.Proofs.Text
import StylePrune.Selector

/-!
Normal forms of selector texts, and what makes a selector eligible.
-/

set_option autoImplicit false

namespace StylePrune.Selector

@[simp] theorem normalize_normalize (s : Text) : normalize (normalize s) = normalize s := by
  have hc : (normalize s).IsCollapsed := (Text.isCollapsed_collapseBlanks s).strip
  rw [normalize, Text.collapseBlanks_of_isCollapsed hc]
  exact Text.strip_strip _

@[simp] theorem isCritical_normalize (s : Text) : isCritical (normalize s) = isCritical s := by
  simp [isCritical]

@[simp] theorem isEligible_normalize (s : Text) : isEligible (normalize s) = isEligible s := by
  simp [isEligible]

theorem isEligible_iff (s : Text) :
    isEligible s = true ↔ normalize s ≠ [] ∧ isCritical s = false ∧
      isAlwaysKept (normalize s) = false ∧ isSafeShape (normalize s) = true := by
  simp [isEligible, and_assoc]

end StylePrune.Selector
