import Mathlib.Data.List.Forall2
import StylePrune.Css.Reader
import StylePrune.Proofs.Css.Prune

/-!
The preludes of a sheet's style rules as token trees. Reading keeps of each its written form and its
selectors, one style rule for each prelude and in the same order.
-/

set_option autoImplicit false

namespace StylePrune.Css

/-- The preludes of the style rules among some rules, those inside groups included. -/
def Rule.preludes (rules : List Rule) : List (List Component) :=
  match rules with
  | [] => []
  | .qualified _ prelude _ :: rs => prelude :: preludes rs
  | .atRule _ keyword _ (some cs) :: rs =>
    (if Text.asciiLower keyword ∈ groupNames then preludes (ofComponents cs) else []) ++ preludes rs
  | .atRule _ _ _ none :: rs | .trivia _ :: rs | .unfinished _ :: rs => preludes rs
termination_by sizeAll rules
decreasing_by
  all_goals simp only [sizeAll, size, contentSize, Option.map_some,
    Option.map_none, Option.getD_some, Option.getD_none]
  all_goals try omega
  have := sizeAll_ofComponents cs
  omega

/-- What reading keeps of a prelude. -/
def Block.Keeps (b : Block) (prelude : List Component) : Prop :=
  b.prelude = writeAll prelude ∧ b.selectors = selectorsOf prelude ∧
    prelude.findSome? Component.error? = none

theorem exists_of_map_eq_ok {ε α β : Type} {f : α → β} {x : Except ε α} {b : β} (h : x.map f = .ok b) :
    ∃ a, x = .ok a ∧ f a = b := by
  cases x with
  | error e => cases h
  | ok a => exact ⟨a, rfl, Except.ok.inj h⟩

theorem LinedText.blocks_read (src : LinedText) (rules : List Rule) (pending : Text) (stop : Nat)
    {r : List Node × Text} (h : src.read rules pending stop = .ok r) :
    List.Forall₂ Block.Keeps (blocksAll r.1) (Rule.preludes rules) := by
  fun_induction LinedText.read src rules pending stop generalizing r with
  | case1 =>
    obtain rfl := Except.ok.inj h
    simp [blocksAll, Rule.preludes]
  | case2 =>
    rename_i ih
    rw [Rule.preludes]
    exact ih h
  | case3 => cases h
  | case4 => cases h
  | case5 _ _ _ _ _ _ _ hp =>
    rename_i ih
    obtain ⟨rest, hr, rfl⟩ := exists_of_map_eq_ok h
    rw [Rule.preludes]
    exact .cons ⟨rfl, rfl, hp⟩ (ih hr)
  | case6 => cases h
  | case7 _ _ _ _ _ _ _ _ _ hn _ _ _ _ _ _ _ hc =>
    rename_i ihc ih
    obtain ⟨rest, hr, rfl⟩ := exists_of_map_eq_ok h
    rw [Rule.preludes, if_pos hn]
    exact List.rel_append (ihc hc) (ih hr)
  | case8 _ _ _ _ _ _ _ _ _ hn =>
    rename_i ih
    obtain ⟨rest, hr, rfl⟩ := exists_of_map_eq_ok h
    rw [Rule.preludes, if_neg hn]
    simpa [blocksAll, Node.blocks] using ih (r := rest) hr
  | case9 =>
    rename_i ih
    obtain ⟨rest, hr, rfl⟩ := exists_of_map_eq_ok h
    rw [Rule.preludes]
    simpa [blocksAll, Node.blocks] using ih (r := rest) hr

/-- The preludes of the style rules of a sheet. -/
def preludes (css : Text) : List (List Component) :=
  match components (normalizeNewlines css) with
  | .ok cs => Rule.preludes (Rule.ofComponents cs)
  | .error _ => []

theorem Sheet.parse_eq_ok_iff {css : Text} {sheet : Sheet} : Sheet.parse css = .ok sheet ↔
    ∃ cs, components (normalizeNewlines css) = .ok cs ∧
      (LinedText.ofText (normalizeNewlines css)).read (Rule.ofComponents cs) [] (normalizeNewlines css).length =
        .ok (sheet.children, sheet.trailing) := by
  have ht : (LinedText.ofText (normalizeNewlines css)).text = normalizeNewlines css := rfl
  simp only [parse, ht]
  cases components (normalizeNewlines css) with
  | error t => simp
  | ok cs =>
    simp only [Except.ok.injEq, exists_eq_left']
    cases (LinedText.ofText (normalizeNewlines css)).read (Rule.ofComponents cs) [] (normalizeNewlines css).length with
    | error e => simp
    | ok r =>
      cases sheet
      simp [Prod.ext_iff]

theorem Sheet.blocks_parse {css : Text} {sheet : Sheet} (h : Sheet.parse css = .ok sheet) :
    List.Forall₂ Block.Keeps sheet.blocks (preludes css) := by
  obtain ⟨cs, hc, hr⟩ := Sheet.parse_eq_ok_iff.1 h
  rw [preludes, hc]
  exact LinedText.blocks_read _ _ _ _ hr

theorem normalize_of_mem_selectorsOf {prelude : List Component} {s : Text} (h : s ∈ selectorsOf prelude) :
    Selector.normalize s = s ∧ s ≠ [] := by
  simp only [selectorsOf, List.mem_filter, List.mem_map, decide_eq_true_eq] at h
  obtain ⟨⟨cs, -, rfl⟩, hn⟩ := h
  exact ⟨Selector.normalize_normalize _, hn⟩

theorem Sheet.normalize_selector {css : Text} {sheet : Sheet} (h : Sheet.parse css = .ok sheet) {b : Block}
    (hb : b ∈ sheet.blocks) {s : Text} (hs : s ∈ b.selectors) : Selector.normalize s = s ∧ s ≠ [] := by
  obtain ⟨hl, hk⟩ := List.forall₂_iff_get.1 (Sheet.blocks_parse h)
  obtain ⟨i, hi, rfl⟩ := List.getElem_of_mem hb
  have hs' := (hk i hi (hl ▸ hi)).2.1 ▸ hs
  exact normalize_of_mem_selectorsOf hs'

end StylePrune.Css
