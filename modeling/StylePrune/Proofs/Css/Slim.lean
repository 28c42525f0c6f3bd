import Mathlib.Data.List.Induction
import StylePrune.Proofs.Css.Pieces

/-!
The sheet that minifying writes, as a tree: the same tokens at every depth, with a space where spacing means
something. The minified text is the tokens of that tree one after the other.
-/

set_option autoImplicit false

namespace StylePrune.Css

mutual
/-- A component as minifying writes it: its tokens as they are, with nothing put between them. -/
def Component.bare : Component → Text
  | .leaf _ t => t.write
  | .block _ b cs => b.opener :: bareAll cs ++ [b.closer]
  | .function _ name args => writeIdent name ++ .char '(' :: bareAll args ++ [.char ')']

def bareAll : List Component → Text
  | [] => []
  | c :: cs => c.bare ++ bareAll cs
end

theorem bareAll_append (cs ds : List Component) : bareAll (cs ++ ds) = bareAll cs ++ bareAll ds := by
  induction cs with
  | nil => rfl
  | cons c cs ih => simp [bareAll, ih]

namespace Component

def space : Component := .leaf .first (.whitespace [.char ' '])

def takesNoSpace (c : Component) : Bool :=
  c.shape = .braces || c.shape = .semicolon || c.shape = .tight

/-- What may go at the end of a level, in braces or not. -/
def isLoose (curly : Bool) (c : Component) : Bool := c.isTrivia || (curly && c.shape = .semicolon)

end Component

/-- The next semicolon of a level comes before the next block in braces, or neither comes. -/
def inDeclaration : List Component → Bool
  | [] => true
  | c :: cs =>
    if c.shape = .braces then false
    else if c.shape = .semicolon then true
    else inDeclaration cs

/-- Spacing between `before` and `c`, with `cs` behind it, means nothing. -/
def isIdle (before c : Component) (cs : List Component) : Bool :=
  before.takesNoSpace || c.takesNoSpace || before.shape = .colon || (c.shape = .colon && inDeclaration (c :: cs))

/-- What follows `before` on a level, spacing that means nothing left out. `gap` says that spacing was there. -/
def spacedAfter (before : Component) (gap : Bool) : List Component → List Component
  | [] => []
  | c :: cs =>
    if c.isTrivia then spacedAfter before true cs
    else (if gap && !isIdle before c cs then [.space] else []) ++ c :: spacedAfter c false cs

def spaced (cs : List Component) : List Component :=
  match cs.dropWhile Component.isTrivia with
  | [] => []
  | c :: cs => c :: spacedAfter c false cs

theorem spaced_cons_of_isTrivia {c : Component} (h : c.isTrivia = true) (cs : List Component) :
    spaced (c :: cs) = spaced cs := by
  rw [spaced, List.dropWhile_cons_of_pos h, spaced]

theorem spaced_cons_of_not {c : Component} (h : c.isTrivia = false) (cs : List Component) :
    spaced (c :: cs) = c :: spacedAfter c false cs := by
  rw [spaced, List.dropWhile_cons_of_neg (by simp [h])]

def dropLoose (curly : Bool) (cs : List Component) : List Component :=
  (cs.reverse.dropWhile (Component.isLoose curly)).reverse

mutual
def Component.slim : Component → Component
  | .leaf p t => .leaf p t
  | .block p b cs => .block p b (spaced (dropLoose (b = .curly) (slimAll cs)))
  | .function p name args => .function p name (spaced (dropLoose false (slimAll args)))

def slimAll : List Component → List Component
  | [] => []
  | c :: cs => c.slim :: slimAll cs
end

/-- A level inside braces, or another one, as it is in the minified sheet. -/
def slimLevel (curly : Bool) (cs : List Component) : List Component := spaced (dropLoose curly (slimAll cs))

theorem slimAll_eq_map (cs : List Component) : slimAll cs = cs.map Component.slim := by
  induction cs with
  | nil => rfl
  | cons c cs ih => rw [slimAll, List.map_cons, ih]

namespace Component

@[simp] theorem shape_slim (c : Component) : c.slim.shape = c.shape := by
  cases c with
  | leaf p t => rfl
  | block p b cs => cases b <;> rfl
  | function p name args => rfl

@[simp] theorem isTrivia_slim (c : Component) : c.slim.isTrivia = c.isTrivia := by
  cases c <;> rfl

theorem shape_of_isTrivia {c : Component} (h : c.isTrivia = true) : c.shape = .plain := by
  cases c with
  | leaf p t => cases t <;> first | rfl | cases h
  | _ => cases h

/-- The piece of a component whose inside is slim already. -/
def solid (c : Component) : Piece := if c.isTrivia then .space else .solid c.shape c.bare

theorem solid_of_isTrivia {c : Component} (h : c.isTrivia = true) : c.solid = .space := if_pos h

theorem solid_of_not {c : Component} (h : c.isTrivia = false) : c.solid = .solid c.shape c.bare := by
  rw [solid, h, if_neg Bool.false_ne_true]

theorem hasShape_solid {c : Component} {s : Shape} (hs : s ≠ .plain) : c.solid.hasShape s = (c.shape = s : Bool) := by
  by_cases h : c.isTrivia = true
  · simp [solid_of_isTrivia h, Piece.hasShape, shape_of_isTrivia h, Ne.symm hs]
  · rw [solid_of_not (by simpa using h), Piece.hasShape]

theorem isLoose_iff (curly : Bool) (c : Component) :
    c.isLoose curly = (c.solid.isSpace || (curly && c.solid.hasShape .semicolon)) := by
  rw [hasShape_solid (by decide), isLoose]
  by_cases h : c.isTrivia = true
  · simp [h, solid_of_isTrivia h, Piece.isSpace]
  · have hf : c.isTrivia = false := by simpa using h
    simp [hf, solid_of_not hf, Piece.isSpace]

end Component

namespace Piece

theorem endsBeforeBraces_solids (cs : List Component) :
    endsBeforeBraces (cs.map Component.solid) = inDeclaration cs := by
  induction cs with
  | nil => rfl
  | cons c cs ih =>
    simp only [List.map_cons, endsBeforeBraces, inDeclaration, ih, Component.hasShape_solid (s := .braces) (by decide),
      Component.hasShape_solid (s := .semicolon) (by decide), decide_eq_true_eq]

/-- Runs of spacing do not come between a piece and the end of its rule. -/
theorem endsBeforeBraces_collapse (ps : List Piece) : endsBeforeBraces (collapse ps) = endsBeforeBraces ps ∧
    endsBeforeBraces (collapse.follow ps) = endsBeforeBraces ps := by
  induction ps with
  | nil => exact ⟨rfl, rfl⟩
  | cons p ps ih =>
    cases p with
    | space =>
      have hs : endsBeforeBraces (.space :: ps) = endsBeforeBraces ps := rfl
      refine ⟨by rw [hs, ← ih.1, collapse], ?_⟩
      rw [follow_space, hs, ← ih.1]
      split
      · rename_i h
        rw [h]
      · rfl
    | solid s t =>
      have hf : endsBeforeBraces (collapse.follow (.solid s t :: ps)) = endsBeforeBraces (.solid s t :: ps) := by
        simp only [collapse.follow, endsBeforeBraces, ih.2]
      exact ⟨hf, hf⟩

theorem collapse_concat_space (ps : List Piece) : collapse (ps ++ [.space]) = collapse ps := by
  have h := (collapse_append ps []).1
  rwa [collapse, meet_nil_right] at h

/-- A piece at the end stands behind what was there, or behind a space. -/
theorem collapse_concat_solid (ps : List Piece) {p : Piece} (hp : p.isSpace = false) :
    (∃ gap : List Piece, gap.all isSpace ∧ collapse (ps ++ [p]) = collapse ps ++ gap ++ [p]) ∧
      ∃ gap : List Piece, gap.all isSpace ∧ collapse.follow (ps ++ [p]) = collapse.follow ps ++ gap ++ [p] := by
  have single : collapse [p] = [p] ∧ collapse.follow [p] = [p] := by
    cases p with
    | space => cases hp
    | solid s t => exact ⟨rfl, rfl⟩
  induction ps with
  | nil => exact ⟨⟨[], rfl, single.1⟩, ⟨[], rfl, single.2⟩⟩
  | cons q ps ih =>
    obtain ⟨⟨gap, hg, hc⟩, ⟨gap', hg', hf⟩⟩ := ih
    cases q with
    | space =>
      refine ⟨⟨gap, hg, hc⟩, ?_⟩
      rw [List.cons_append, follow_space, follow_space, hc, if_neg (by simp)]
      by_cases he : collapse ps = []
      · exact ⟨.space :: gap, by simpa [isSpace] using hg, by simp [he]⟩
      · exact ⟨gap, hg, by simp [he]⟩
    | solid s t => exact ⟨⟨gap', hg', congrArg (_ :: ·) hf⟩, ⟨gap', hg', congrArg (_ :: ·) hf⟩⟩

theorem dropEnd_append_space {curly : Bool} (ps : List Piece) {gap : List Piece} (h : gap.all isSpace) :
    dropEnd curly (ps ++ gap) = dropEnd curly ps := by
  rw [dropEnd, dropEnd, List.reverse_append, List.dropWhile_append_of_pos]
  intro p hp
  rw [List.all_eq_true.1 h p (List.mem_reverse.1 hp), Bool.true_or]

theorem dropEnd_concat (curly : Bool) (ps : List Piece) (p : Piece) : dropEnd curly (ps ++ [p]) =
    if p.isSpace || (curly && p.hasShape .semicolon) then dropEnd curly ps else ps ++ [p] := by
  rw [dropEnd, List.reverse_append, List.reverse_singleton, List.singleton_append, List.dropWhile_cons]
  split <;> simp [dropEnd]

end Piece

theorem dropLoose_concat (curly : Bool) (cs : List Component) (c : Component) : dropLoose curly (cs ++ [c]) =
    if c.isLoose curly then dropLoose curly cs else cs ++ [c] := by
  rw [dropLoose, List.reverse_append, List.reverse_singleton, List.singleton_append, List.dropWhile_cons]
  split <;> simp [dropLoose]

/-- What goes at the end of a level goes before or after its spacing is taken together. -/
theorem dropEnd_collapse (curly : Bool) (cs : List Component) :
    Piece.dropEnd curly (Piece.collapse (cs.map Component.solid)) =
      Piece.collapse ((dropLoose curly cs).map Component.solid) := by
  induction cs using List.reverseRecOn with
  | nil => rfl
  | append_singleton cs c ih =>
    rw [List.map_append, List.map_singleton, dropLoose_concat, Component.isLoose_iff]
    by_cases hc : c.solid.isSpace = true
    · have hs : c.solid = .space := by
        cases h : c.solid with
        | space => rfl
        | solid s t => rw [h] at hc; cases hc
      rw [hs, Piece.collapse_concat_space, ih]
      rfl
    · have hf : c.solid.isSpace = false := by simpa using hc
      obtain ⟨gap, hg, hcol⟩ := (Piece.collapse_concat_solid (cs.map Component.solid) hf).1
      rw [hcol, Piece.dropEnd_concat]
      split
      · rw [Piece.dropEnd_append_space _ hg, ih]
      · rw [List.map_append, List.map_singleton, hcol]

theorem isIdle_solids (before c : Component) (cs : List Component) :
    Piece.isIdle before.solid (c.solid :: Piece.collapse.follow (cs.map Component.solid)) = isIdle before c cs := by
  have hd : Piece.endsBeforeBraces (c.solid :: Piece.collapse.follow (cs.map Component.solid)) =
      inDeclaration (c :: cs) := by
    rw [← Piece.endsBeforeBraces_solids, List.map_cons]
    simp only [Piece.endsBeforeBraces, (Piece.endsBeforeBraces_collapse _).2]
  simp only [Piece.isIdle, isIdle, hd, Piece.takesNoSpace, Component.takesNoSpace,
    Component.hasShape_solid (s := .braces) (by decide), Component.hasShape_solid (s := .semicolon) (by decide),
    Component.hasShape_solid (s := .tight) (by decide), Component.hasShape_solid (s := .colon) (by decide)]

/-- The text of what follows a component, without and with spacing right behind it. -/
theorem textAfter_solids {before : Component} (hb : before.isTrivia = false) (cs : List Component) :
    Piece.textAfter before.solid (Piece.collapse.follow (cs.map Component.solid)) =
        bareAll (spacedAfter before false cs) ∧
      Piece.textAfter before.solid (Piece.collapse.follow (.space :: cs.map Component.solid)) =
        bareAll (spacedAfter before true cs) := by
  induction cs generalizing before with
  | nil => exact ⟨rfl, rfl⟩
  | cons c cs ih =>
    rw [List.map_cons]
    by_cases hc : c.isTrivia = true
    · rw [Component.solid_of_isTrivia hc, spacedAfter, if_pos hc, spacedAfter, if_pos hc]
      refine ⟨(ih hb).2, ?_⟩
      rw [Piece.follow_space, Piece.collapse, ← Piece.follow_space]
      exact (ih hb).2
    · have hf : c.isTrivia = false := by simpa using hc
      have hs := Component.solid_of_not hf
      have hfollow : Piece.collapse.follow (c.solid :: cs.map Component.solid) =
          c.solid :: Piece.collapse.follow (cs.map Component.solid) := by rw [hs]; rfl
      have hcol : Piece.collapse (c.solid :: cs.map Component.solid) =
          c.solid :: Piece.collapse.follow (cs.map Component.solid) := by rw [hs]; rfl
      have htext (p : Piece) : Piece.textAfter p (c.solid :: Piece.collapse.follow (cs.map Component.solid)) =
          c.bare ++ bareAll (spacedAfter c false cs) := by
        rw [hs, Piece.textAfter, ← hs, (ih hf).1]
      constructor
      · rw [hfollow, htext, spacedAfter, if_neg hc]
        rfl
      · rw [Piece.follow_space, hcol, if_neg (List.cons_ne_nil _ _), Piece.textAfter, isIdle_solids, htext, spacedAfter,
          if_neg hc, bareAll_append]
        cases isIdle before c cs <;> rfl

theorem text_solids (cs : List Component) :
    Piece.text (Piece.collapse (cs.map Component.solid)) = bareAll (spaced cs) := by
  induction cs with
  | nil => rfl
  | cons c cs ih =>
    rw [List.map_cons]
    by_cases hc : c.isTrivia = true
    · rw [Component.solid_of_isTrivia hc, Piece.collapse, ih, spaced_cons_of_isTrivia hc]
    · have hf : c.isTrivia = false := by simpa using hc
      have hs := Component.solid_of_not hf
      have hcol : Piece.collapse (c.solid :: cs.map Component.solid) =
          c.solid :: Piece.collapse.follow (cs.map Component.solid) := by rw [hs]; rfl
      rw [spaced_cons_of_not hf, hcol, Piece.text, hs, Piece.textAfter, ← hs, (textAfter_solids hf cs).1]
      rfl

theorem tidy_solids (curly : Bool) (cs : List Component) :
    Piece.tidy curly (cs.map Component.solid) = bareAll (spaced (dropLoose curly cs)) := by
  rw [Piece.tidy, dropEnd_collapse, text_solids]

mutual
theorem Component.piece_eq_solid (c : Component) : c.piece = c.slim.solid := by
  cases c with
  | leaf p t => cases t <;> rfl
  | block p b cs =>
    have h := pieces_eq_solids cs
    rw [Component.piece, h, tidy_solids]
    cases b <;> rfl
  | function p name args =>
    have h := pieces_eq_solids args
    rw [Component.piece, h, tidy_solids]
    rfl

theorem pieces_eq_solids (cs : List Component) : pieces cs = (slimAll cs).map Component.solid := by
  cases cs with
  | nil => rfl
  | cons c cs =>
    have h := c.piece_eq_solid
    have hs := pieces_eq_solids cs
    rw [pieces, slimAll, List.map_cons, h, hs]
end

/-- Minifying writes the tokens of the slim sheet, one after the other. -/
theorem minify_eq_bareAll {css : Text} {cs : List Component} (h : components css = .ok cs) :
    minify css = .ok (bareAll (slimLevel false cs)) := by
  rw [minify, h, slimLevel, ← tidy_solids, ← pieces_eq_solids]
  rfl

end StylePrune.Css
