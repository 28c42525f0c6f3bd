import StylePrune.Proofs.Css.Shape
import StylePrune.Proofs.Css.Slim

/-!
Spacing between neighbours in a minified sheet, which between compound selectors is a combinator. On every
level of a sheet two tokens that are no separators keep a space between them where there was spacing or a
comment, and none where there was neither. Before a colon this is so where the level goes on to a block in braces.
-/

set_option autoImplicit false

namespace StylePrune.Css

/-- The components of a level, spacing and comments left out. -/
def solids (cs : List Component) : List Component := cs.filter fun c => !c.isTrivia

/-- The level inside a block or a function. -/
def Component.inside? : Component → Option (List Component)
  | .leaf .. => none
  | .block _ _ cs => some cs
  | .function _ _ args => some args

/-- The level to which a path leads: each number names a block or a function by its place among the
components that are not spacing. -/
def level? : List Nat → List Component → Option (List Component)
  | [], cs => some cs
  | i :: path, cs => ((solids cs)[i]?.bind Component.inside?).bind (level? path)

/-- Component `i` of a level and the next one, the spacing between them and what follows. -/
structure Neighbours (cs : List Component) (i : Nat) (before : Component) (gap : List Component) (after : Component)
    (back : List Component) : Prop where
  exists_front : ∃ front, cs = front ++ before :: (gap ++ after :: back) ∧ (solids front).length = i
  before_solid : before.isTrivia = false
  after_solid : after.isTrivia = false
  gap_trivia : ∀ c ∈ gap, c.isTrivia = true

section Levels

variable {cs ds : List Component} {c : Component} {curly : Bool}

theorem solids_append (cs ds : List Component) : solids (cs ++ ds) = solids cs ++ solids ds := List.filter_append ..

theorem solids_cons_of_isTrivia (h : c.isTrivia = true) (cs : List Component) : solids (c :: cs) = solids cs := by
  rw [solids, List.filter_cons_of_neg (by simp [h])]
  rfl

theorem solids_cons_of_not (h : c.isTrivia = false) (cs : List Component) : solids (c :: cs) = c :: solids cs := by
  rw [solids, List.filter_cons_of_pos (by simp [h])]
  rfl

theorem solids_slimAll (cs : List Component) : solids (slimAll cs) = (solids cs).map Component.slim := by
  rw [slimAll_eq_map, solids, List.filter_map, solids]
  congr 2
  funext c
  simp

theorem solids_spacedAfter (before : Component) (gap : Bool) (cs : List Component) :
    solids (spacedAfter before gap cs) = solids cs := by
  induction cs generalizing before gap with
  | nil => rfl
  | cons c cs ih =>
    rw [spacedAfter]
    by_cases hc : c.isTrivia = true
    · rw [if_pos hc, ih, solids_cons_of_isTrivia hc]
    · have hf : c.isTrivia = false := by simpa using hc
      have hgap : solids (if (gap && !isIdle before c cs) = true then [.space] else []) = [] := by split <;> rfl
      rw [if_neg hc, solids_append, hgap, List.nil_append, solids_cons_of_not hf, ih, solids_cons_of_not hf]

theorem solids_spaced (cs : List Component) : solids (spaced cs) = solids cs := by
  induction cs with
  | nil => rfl
  | cons c cs ih =>
    by_cases hc : c.isTrivia = true
    · rw [spaced_cons_of_isTrivia hc, solids_cons_of_isTrivia hc, ih]
    · have hf : c.isTrivia = false := by simpa using hc
      rw [spaced_cons_of_not hf, solids_cons_of_not hf, solids_spacedAfter, ← solids_cons_of_not hf]

/-- Nothing but spacing and semicolons goes at the end of a level. -/
theorem exists_dropLoose_append (curly : Bool) (cs : List Component) :
    ∃ tail, cs = dropLoose curly cs ++ tail ∧ ∀ c ∈ tail, c.isLoose curly = true := by
  refine ⟨(cs.reverse.takeWhile (Component.isLoose curly)).reverse, ?_, fun c hc => ?_⟩
  · rw [dropLoose, ← List.reverse_append, List.takeWhile_append_dropWhile, List.reverse_reverse]
  · exact List.all_eq_true.1 List.all_takeWhile c (List.mem_reverse.1 hc)

theorem shape_of_isLoose (h : c.isLoose curly = true) (hc : c.isTrivia = false) : c.shape = .semicolon := by
  have hb : curly = true ∧ c.shape = .semicolon := by simpa [Component.isLoose, hc] using h
  exact hb.2

/-- A component other than a semicolon has the same place in the minified level. -/
theorem getElem?_solids_slimLevel {i : Nat} (h : (solids cs)[i]? = some c) (hs : c.shape ≠ .semicolon) :
    (solids (slimLevel curly cs))[i]? = some c.slim := by
  have hslim : (solids (slimAll cs))[i]? = some c.slim := by rw [solids_slimAll, List.getElem?_map, h, Option.map_some]
  obtain ⟨tail, ht, hloose⟩ := exists_dropLoose_append curly (slimAll cs)
  rw [ht, solids_append] at hslim
  rw [slimLevel, solids_spaced]
  by_cases hi : i < (solids (dropLoose curly (slimAll cs))).length
  · rwa [List.getElem?_append_left hi] at hslim
  · rw [List.getElem?_append_right (by omega)] at hslim
    obtain ⟨hmem, hsolid⟩ := List.mem_filter.1 (List.mem_of_getElem? hslim)
    exact absurd (c.shape_slim ▸ shape_of_isLoose (hloose _ hmem) (by simpa using hsolid)) hs

/-- The levels of the minified sheet are the levels of the sheet, each as it is in there. -/
theorem level?_slimLevel {path : List Nat} {ls : List Component} (h : level? path cs = some ls) (curly : Bool) :
    ∃ b, level? path (slimLevel curly cs) = some (slimLevel b ls) := by
  induction path generalizing cs curly with
  | nil => exact ⟨curly, by rw [level?, ← Option.some.inj h]⟩
  | cons i path ih =>
    obtain ⟨inner, hinner, hpath⟩ := Option.bind_eq_some_iff.1 h
    obtain ⟨c, hc, hin⟩ := Option.bind_eq_some_iff.1 hinner
    have hslim (b : Bool) (hs : c.shape ≠ .semicolon) (hb : c.slim.inside? = some (slimLevel b inner)) :
        level? (i :: path) (slimLevel curly cs) = level? path (slimLevel b inner) := by
      rw [level?, getElem?_solids_slimLevel hc hs, Option.bind_some, hb, Option.bind_some]
    cases c with
    | leaf p t => cases hin
    | block p b content =>
      obtain rfl := Option.some.inj hin
      obtain ⟨b', hb'⟩ := ih hpath (b = .curly)
      exact ⟨b', by rw [hslim (b = .curly) (by cases b <;> simp [Component.shape]) rfl, hb']⟩
    | function p name args =>
      obtain rfl := Option.some.inj hin
      obtain ⟨b', hb'⟩ := ih hpath false
      exact ⟨b', by rw [hslim false (by simp [Component.shape]) rfl, hb']⟩

end Levels

section Gaps

variable {cs gap back : List Component} {before after : Component} {i : Nat} {curly : Bool}

/-- What is left of the spacing between two neighbours. -/
def kept (before : Component) (gap : List Component) (after : Component) (back : List Component) : List Component :=
  if !gap.isEmpty && !isIdle before after back then [.space] else []

theorem isTrivia_of_mem_kept {c : Component} (h : c ∈ kept before gap after back) : c.isTrivia = true := by
  unfold kept at h
  split at h
  · rw [List.mem_singleton.1 h]
    rfl
  · cases h

theorem spacedAfter_gap (ha : after.isTrivia = false) (hg : ∀ c ∈ gap, c.isTrivia = true) (seen : Bool) :
    spacedAfter before seen (gap ++ after :: back) =
      (if (seen || !gap.isEmpty) && !isIdle before after back then [.space] else []) ++
        after :: spacedAfter after false back := by
  induction gap generalizing seen with
  | nil => rw [List.nil_append, spacedAfter, if_neg (by simp [ha]), List.isEmpty_nil, Bool.not_true, Bool.or_false]
  | cons c gap ih =>
    rw [List.cons_append, spacedAfter, if_pos (hg c List.mem_cons_self),
      ih fun c hc => hg c (List.mem_cons_of_mem _ hc), List.isEmpty_cons, Bool.true_or, Bool.not_false, Bool.or_true]

variable (hb : before.isTrivia = false) (ha : after.isTrivia = false) (hg : ∀ c ∈ gap, c.isTrivia = true)
include hb ha hg

/-- What stands in front of two neighbours does not matter to the spacing between them. -/
theorem exists_spacedAfter (first : Component) (seen : Bool) (front : List Component) :
    ∃ front', spacedAfter first seen (front ++ before :: (gap ++ after :: back)) =
      front' ++ before :: (kept before gap after back ++ after :: spacedAfter after false back) ∧
        solids front' = solids front := by
  induction front generalizing first seen with
  | nil =>
    rw [List.nil_append, spacedAfter, if_neg (by simp [hb]), spacedAfter_gap ha hg, Bool.false_or]
    refine ⟨_, rfl, ?_⟩
    split <;> rfl
  | cons c front ih =>
    rw [List.cons_append, spacedAfter]
    by_cases hc : c.isTrivia = true
    · obtain ⟨front', hf, hs⟩ := ih first true
      exact ⟨front', by rw [if_pos hc, hf], by rw [hs, solids_cons_of_isTrivia hc]⟩
    · obtain ⟨front', hf, hs⟩ := ih c false
      have hc' : c.isTrivia = false := by simpa using hc
      rw [if_neg hc, hf]
      refine ⟨
        (if seen && !isIdle first c (front ++ before :: (gap ++ after :: back)) then [.space] else []) ++ c :: front',
        by rw [List.append_assoc, List.cons_append], ?_⟩
      rw [solids_append, solids_cons_of_not hc', hs, solids_cons_of_not hc']
      split <;> rfl

theorem exists_spaced (front : List Component) : ∃ front', spaced (front ++ before :: (gap ++ after :: back)) =
    front' ++ before :: (kept before gap after back ++ after :: spacedAfter after false back) ∧
      solids front' = solids front := by
  induction front with
  | nil =>
    rw [List.nil_append, spaced_cons_of_not hb, spacedAfter_gap ha hg, Bool.false_or]
    exact ⟨[], rfl, rfl⟩
  | cons c front ih =>
    rw [List.cons_append]
    by_cases hc : c.isTrivia = true
    · obtain ⟨front', hf, hs⟩ := ih
      rw [spaced_cons_of_isTrivia hc]
      exact ⟨front', hf, by rw [hs, solids_cons_of_isTrivia hc]⟩
    · obtain ⟨front', hf, hs⟩ := exists_spacedAfter hb ha hg c false front
      have hc' : c.isTrivia = false := by simpa using hc
      rw [spaced_cons_of_not hc']
      exact ⟨c :: front', by rw [hf, List.cons_append], by rw [solids_cons_of_not hc', hs, solids_cons_of_not hc']⟩

end Gaps

namespace Neighbours

variable {cs gap back : List Component} {before after : Component} {i : Nat}

theorem spaced (h : Neighbours cs i before gap after back) :
    Neighbours (spaced cs) i before (kept before gap after back) after (spacedAfter after false back) := by
  obtain ⟨⟨front, rfl, hi⟩, hb, ha, hg⟩ := h
  obtain ⟨front', hf, hs⟩ := exists_spaced hb ha hg front
  exact ⟨⟨front', hf, by rw [hs, hi]⟩, hb, ha, fun _ => isTrivia_of_mem_kept⟩

theorem slimAll (h : Neighbours cs i before gap after back) :
    Neighbours (slimAll cs) i before.slim (slimAll gap) after.slim (slimAll back) := by
  obtain ⟨⟨front, rfl, hi⟩, hb, ha, hg⟩ := h
  refine ⟨⟨Css.slimAll front, by simp [slimAll_eq_map], by rw [solids_slimAll, List.length_map, hi]⟩,
    by simpa using hb, by simpa using ha, fun c hc => ?_⟩
  rw [slimAll_eq_map] at hc
  obtain ⟨g, hgap, rfl⟩ := List.mem_map.1 hc
  rw [Component.isTrivia_slim]
  exact hg g hgap

/-- Neighbours of which the second one is no semicolon stay when the end of their level goes. -/
theorem dropLoose (h : Neighbours cs i before gap after back) (hs : after.shape ≠ .semicolon) (curly : Bool) :
    ∃ back' tail, back = back' ++ tail ∧ (∀ c ∈ tail, c.isLoose curly = true) ∧
      Neighbours (dropLoose curly cs) i before gap after back' := by
  obtain ⟨⟨front, rfl, hi⟩, hb, ha, hg⟩ := h
  have hloose : after.isLoose curly = false := by simp [Component.isLoose, ha, hs]
  obtain ⟨tail, ht, hall⟩ := exists_dropLoose_append curly back
  have hcut (xs : List Component) :
      Css.dropLoose curly (xs ++ after :: back) = xs ++ after :: Css.dropLoose curly back := by
    rw [Css.dropLoose, List.reverse_append, List.reverse_cons, List.append_assoc, List.dropWhile_append, Css.dropLoose]
    split
    · rename_i he
      rw [List.isEmpty_iff.1 he, List.singleton_append, List.dropWhile_cons_of_neg (by simp [hloose])]
      simp
    · simp
  refine ⟨Css.dropLoose curly back, tail, ht, hall, ⟨front, ?_, hi⟩, hb, ha, hg⟩
  simpa using hcut (front ++ before :: gap)

end Neighbours

theorem inDeclaration_of_forall_isLoose {tail : List Component} {curly : Bool}
    (h : ∀ c ∈ tail, c.isLoose curly = true) : inDeclaration tail = true := by
  induction tail with
  | nil => rfl
  | cons c tail ih =>
    have hb : c.shape ≠ .braces := by
      by_cases hc : c.isTrivia = true
      · rw [Component.shape_of_isTrivia hc]
        decide
      · rw [shape_of_isLoose (h c List.mem_cons_self) (by simpa using hc)]
        decide
    rw [inDeclaration, if_neg hb, ih fun c hc => h c (List.mem_cons_of_mem _ hc)]
    split <;> rfl

/-- A block in braces that comes before the next semicolon is not at the end that goes. -/
theorem inDeclaration_of_append {cs tail : List Component} {curly : Bool} (h : inDeclaration (cs ++ tail) = false)
    (ht : ∀ c ∈ tail, c.isLoose curly = true) : inDeclaration cs = false := by
  induction cs with
  | nil =>
    rw [List.nil_append, inDeclaration_of_forall_isLoose ht] at h
    cases h
  | cons c cs ih =>
    rw [List.cons_append, inDeclaration] at h
    rw [inDeclaration]
    by_cases hb : c.shape = .braces
    · rw [if_pos hb]
    · rw [if_neg hb] at h ⊢
      by_cases hs : c.shape = .semicolon
      · rw [if_pos hs] at h
        cases h
      · rw [if_neg hs] at h ⊢
        exact ih h

theorem inDeclaration_slimAll (cs : List Component) : inDeclaration (slimAll cs) = inDeclaration cs := by
  induction cs with
  | nil => rfl
  | cons c cs ih => simp only [slimAll, inDeclaration, Component.shape_slim, ih]

/-- Between two components of a level that are no separators, the second of which may be a colon if a block in
braces follows before any semicolon, all spacing and comments come down to one space; where nothing was between
them nothing is. -/
theorem minify_neighbours {css : Text} {cs : List Component} (h : components css = .ok cs) :
    minify css = .ok (bareAll (slimLevel false cs)) ∧
      ∀ path ls i before gap after back, level? path cs = some ls → Neighbours ls i before gap after back →
        before.shape = .plain →
        (after.shape = .plain ∨ after.shape = .colon ∧ inDeclaration (after :: back) = false) →
        ∃ ls' back', level? path (slimLevel false cs) = some ls' ∧
          Neighbours ls' i before.slim (if gap.isEmpty then [] else [Component.space]) after.slim back' := by
  refine ⟨minify_eq_bareAll h, fun path ls i before gap after back hpath hn hb ha => ?_⟩
  obtain ⟨curly, hlevel⟩ := level?_slimLevel hpath false
  have hs : after.slim.shape ≠ .semicolon := by
    rw [Component.shape_slim]
    rcases ha with ha | ⟨ha, -⟩ <;> rw [ha] <;> decide
  obtain ⟨back', tail, ht, hloose, hdrop⟩ := hn.slimAll.dropLoose hs curly
  have hidle : isIdle before.slim after.slim back' = false := by
    rcases ha with ha | ⟨ha, hd⟩
    · simp [isIdle, Component.takesNoSpace, hb, ha]
    · have hd' : inDeclaration (after.slim :: back') = false := by
        have hall : inDeclaration ((after.slim :: back') ++ tail) = false := by
          rw [List.cons_append, ← ht]
          exact (inDeclaration_slimAll (after :: back)).trans hd
        exact inDeclaration_of_append hall hloose
      simp [isIdle, Component.takesNoSpace, hb, ha, hd']
  have hk : kept before.slim (slimAll gap) after.slim back' = if gap.isEmpty then [] else [.space] := by
    rw [kept, hidle, slimAll_eq_map, List.isEmpty_map]
    cases gap.isEmpty <;> rfl
  exact ⟨slimLevel curly ls, spacedAfter after.slim false back', hlevel, hk ▸ hdrop.spaced⟩

/-- In the arguments of a function a descendant stays one. -/
theorem minify_neighbours_is :
    let name (n : Nat) (s : String) : Component := .leaf ⟨1, n⟩ (.ident s)
    let mark (n : Nat) (s : String) : Component := .leaf ⟨1, n⟩ (.literal s)
    let gap : Component := .leaf ⟨1, 6⟩ (.whitespace " ")
    let args := [name 5 "a", gap, mark 7 ".", name 8 "b"]
    let cs := [mark 1 ":", .function ⟨1, 2⟩ "is" args, .block ⟨1, 10⟩ .curly []]
    components ":is(a .b)\x7b\x7d" = .ok cs ∧ level? [1] cs = some args ∧
      Neighbours args 0 (name 5 "a") [gap] (mark 7 ".") [name 8 "b"] ∧
      ∃ args' back', level? [1] (slimLevel false cs) = some args' ∧
        Neighbours args' 0 (name 5 "a") [Component.space] (mark 7 ".") back' := by
  intro name mark gap args cs
  have hc : components ":is(a .b)\x7b\x7d" = .ok cs := by cbv
  have hl : level? [1] cs = some args := rfl
  have hn : Neighbours args 0 (name 5 "a") [gap] (mark 7 ".") [name 8 "b"] :=
    ⟨⟨[], rfl, rfl⟩, rfl, rfl, by simp [gap, Component.isTrivia]⟩
  exact ⟨hc, hl, hn, (minify_neighbours hc).2 [1] args 0 _ _ _ _ hl hn (by decide) (.inl (by decide))⟩

/-- Component `i` of the level to which a path leads is in the prelude of a rule: on the level of the rule, or
inside the brackets of the prelude. -/
inductive InPrelude : List Component → List Nat → Nat → Prop
  | own {cs : List Component} {i : Nat} (h : inDeclaration ((solids cs).drop i) = false) : InPrelude cs [] i
  | bracket {cs : List Component} {c : Component} {path : List Nat} {i j : Nat} (hc : (solids cs)[j]? = some c)
    (hs : c.shape ≠ .braces) (h : inDeclaration ((solids cs).drop j) = false) : InPrelude cs (j :: path) i
  | deeper {cs inner : List Component} {path : List Nat} {i j : Nat}
    (hc : (solids cs)[j]?.bind Component.inside? = some inner) (h : InPrelude inner path i) : InPrelude cs (j :: path) i

/-- Neighbours in a prelude are apart in the minified sheet if and only if a whitespace token, not merely a
comment, stands between them in the sheet. -/
def KeepsCombinators (css : Text) : Prop :=
  ∀ cs path ls i before gap after back, components css = .ok cs → level? path cs = some ls → InPrelude cs path i →
    Neighbours ls i before gap after back → before.shape = .plain → (after.shape = .plain ∨ after.shape = .colon) →
    ∃ ls' gap' back', level? path (slimLevel false cs) = some ls' ∧
      Neighbours ls' i before.slim gap' after.slim back' ∧ (gap' ≠ [] ↔ ∃ c ∈ gap, c.isWhitespace = true)

/-- A comment inside a compound selector makes two of it. -/
theorem not_keepsCombinators_comment : (∃ sheet, Sheet.parse "a/**/.b\x7b\x7d" = .ok sheet) ∧
    minify "a/**/.b\x7b\x7d" = .ok "a .b\x7b\x7d" ∧ ¬ KeepsCombinators "a/**/.b\x7b\x7d" := by
  refine ⟨⟨_, by cbv⟩, by cbv, fun h => ?_⟩
  let name (n : Nat) (s : String) : Component := .leaf ⟨1, n⟩ (.ident s)
  let comment : Component := .leaf ⟨1, 2⟩ (.comment [])
  let dot : Component := .leaf ⟨1, 6⟩ (.literal ".")
  let braces : Component := .block ⟨1, 8⟩ .curly []
  have hc : components "a/**/.b\x7b\x7d" = .ok [name 1 "a", comment, dot, name 7 "b", braces] := by cbv
  have hn : Neighbours [name 1 "a", comment, dot, name 7 "b", braces] 0 (name 1 "a") [comment] dot
      [name 7 "b", braces] :=
    ⟨⟨[], rfl, rfl⟩, rfl, rfl, by simp [comment, Component.isTrivia]⟩
  obtain ⟨ls', gap', back', hl, ⟨⟨front, hls, hfront⟩, -⟩, hiff⟩ :=
    h _ [] _ 0 _ _ _ _ hc rfl (.own (by decide)) hn (by decide) (.inl (by decide))
  have hslim : ls' = [name 1 "a", .space, dot, name 7 "b", braces] := (Option.some.inj hl).symm
  have hgap : gap' = [] := by
    by_contra hne
    obtain ⟨c, hc, hw⟩ := hiff.1 hne
    obtain rfl := List.mem_singleton.1 hc
    cases hw
  subst hslim hgap
  cases front with
  | nil => simp [name, dot, Component.slim, Component.space] at hls
  | cons c front =>
    obtain ⟨rfl, -⟩ := List.cons.inj hls
    simp [name, solids, Component.isTrivia] at hfront

end StylePrune.Css
