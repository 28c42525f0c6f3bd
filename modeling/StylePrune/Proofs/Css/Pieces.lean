import StylePrune.Css.Minify
import StylePrune.Proofs.Css.Complete

/-!
Pieces of sheets one after the other. Spacing between two lists of pieces comes down to one space at most,
and no piece looks for a brace or a semicolon past the one its own list ends with.
-/

set_option autoImplicit false

namespace StylePrune.Css

section Places

mutual
theorem Component.piece_placeless (c : Component) : c.placeless.piece = c.piece := by
  cases c with
  | leaf p t => cases t <;> rfl
  | block p b cs =>
    have h := pieces_placelessAll cs
    cases b <;> simp only [Component.placeless, Component.piece, Component.shape, h]
  | function p n cs =>
    have h := pieces_placelessAll cs
    simp only [Component.placeless, Component.piece, h]

theorem pieces_placelessAll (cs : List Component) : pieces (placelessAll cs) = pieces cs := by
  cases cs with
  | nil => rfl
  | cons c cs =>
    have h := c.piece_placeless
    have hs := pieces_placelessAll cs
    simp only [placelessAll, pieces, h, hs]
end

end Places

theorem pieces_append (cs ds : List Component) : pieces (cs ++ ds) = pieces cs ++ pieces ds := by
  induction cs with
  | nil => rfl
  | cons c cs ih => simp [pieces, ih]

namespace Piece

/-- Two lists of pieces with a space between them, if both have any. -/
def meet : List Piece → List Piece → List Piece
  | [], qs => qs
  | ps, [] => ps
  | ps, qs => ps ++ .space :: qs

@[simp] theorem meet_nil_left (qs : List Piece) : meet [] qs = qs := rfl

@[simp] theorem meet_nil_right (ps : List Piece) : meet ps [] = ps := by cases ps <;> rfl

theorem meet_of_ne {ps qs : List Piece} (hp : ps ≠ []) (hq : qs ≠ []) : meet ps qs = ps ++ .space :: qs := by
  cases ps with
  | nil => exact absurd rfl hp
  | cons p ps => cases qs with
    | nil => exact absurd rfl hq
    | cons q qs => rfl

theorem follow_space (ps : List Piece) :
    collapse.follow (.space :: ps) = if collapse ps = [] then [] else .space :: collapse ps := by
  rw [collapse.follow]
  cases collapse ps <;> rfl

/-- Spacing between two lists of pieces comes down to a space. -/
theorem collapse_append (ps qs : List Piece) :
    collapse (ps ++ .space :: qs) = meet (collapse ps) (collapse qs) ∧
      collapse.follow (ps ++ .space :: qs) = collapse.follow ps ++ collapse.follow (.space :: qs) := by
  induction ps with
  | nil => exact ⟨rfl, rfl⟩
  | cons p ps ih =>
    obtain ⟨ihc, ihf⟩ := ih
    cases p with
    | space =>
      refine ⟨ihc, ?_⟩
      rw [List.cons_append, follow_space, ihc, follow_space, follow_space]
      by_cases hp : collapse ps = []
      · simp [hp]
      · by_cases hq : collapse qs = []
        · simp [hp, hq]
        · simp [meet_of_ne hp hq, hp, hq]
    | solid s t =>
      have hf : collapse.follow (.solid s t :: (ps ++ .space :: qs)) =
          collapse.follow (.solid s t :: ps) ++ collapse.follow (.space :: qs) := congrArg (_ :: ·) ihf
      refine ⟨?_, hf⟩
      have hc (rs : List Piece) : collapse (.solid s t :: rs) = collapse.follow (.solid s t :: rs) := rfl
      rw [List.cons_append, hc, hf, hc, follow_space]
      by_cases hq : collapse qs = []
      · simp [hq]
      · rw [if_neg hq, meet_of_ne (by simp [collapse.follow]) hq]

theorem collapse_concat (ps : List Piece) {p : Piece} (hp : p.isSpace = false) :
    (∃ qs, collapse (ps ++ [p]) = qs ++ [p]) ∧ ∃ qs, collapse.follow (ps ++ [p]) = qs ++ [p] := by
  have single : collapse [p] = [p] ∧ collapse.follow [p] = [p] := by
    cases p with
    | space => cases hp
    | solid s t => exact ⟨rfl, rfl⟩
  induction ps with
  | nil => exact ⟨⟨[], single.1⟩, ⟨[], single.2⟩⟩
  | cons q ps ih =>
    obtain ⟨⟨qs, hc⟩, ⟨rs, hf⟩⟩ := ih
    cases q with
    | space =>
      refine ⟨⟨qs, hc⟩, ⟨.space :: qs, ?_⟩⟩
      rw [List.cons_append, follow_space, hc, if_neg (by simp), List.cons_append]
    | solid s t => exact ⟨⟨.solid s t :: rs, congrArg (_ :: ·) hf⟩, ⟨.solid s t :: rs, congrArg (_ :: ·) hf⟩⟩

theorem getLast?_collapse (ps : List Piece) :
    (collapse ps).getLast? ≠ some .space ∧ (collapse.follow ps).getLast? ≠ some .space := by
  induction ps with
  | nil => exact ⟨by simp [collapse], by simp [collapse.follow]⟩
  | cons p ps ih =>
    cases p with
    | space =>
      refine ⟨ih.1, ?_⟩
      rw [follow_space]
      split
      · simp
      · rename_i hn
        rw [List.getLast?_cons_of_ne_nil hn]
        exact ih.1
    | solid s t =>
      have hf : (Piece.solid s t :: collapse.follow ps).getLast? ≠ some .space := by
        rw [List.getLast?_cons]
        cases hl : (collapse.follow ps).getLast? with
        | none => simp
        | some q => simpa [hl] using ih.2
      exact ⟨hf, hf⟩

/-- Outside braces there is nothing left to drop at the end. -/
theorem tidy_false (ps : List Piece) : tidy false ps = text (collapse ps) := by
  have hl := (getLast?_collapse ps).1
  rw [tidy, dropEnd]
  congr 1
  rw [← List.head?_reverse] at hl
  cases hr : (collapse ps).reverse with
  | nil => exact (List.reverse_eq_nil_iff.1 hr).symm
  | cons p rs =>
    have hp : p.isSpace = false := by
      cases p with
      | space => simp [hr] at hl
      | solid s t => rfl
    rw [List.dropWhile_cons_of_neg (by simp [hp]), ← hr, List.reverse_reverse]

/-- A piece that ends a rule. -/
def Ends (p : Piece) : Prop := p.hasShape .braces = true ∨ p.hasShape .semicolon = true

theorem Ends.isSpace {p : Piece} (h : p.Ends) : p.isSpace = false := by
  cases p with
  | space => rcases h with h | h <;> cases h
  | solid s t => rfl

variable {ps qs : List Piece} {p before : Piece}

theorem endsBeforeBraces_append (hp : p.Ends) (ps qs : List Piece) :
    endsBeforeBraces (ps ++ [p] ++ qs) = endsBeforeBraces (ps ++ [p]) := by
  induction ps with
  | nil =>
    rcases hp with hp | hp
    · simp [endsBeforeBraces, hp]
    · by_cases hb : p.hasShape .braces = true <;> simp [endsBeforeBraces, hp, hb]
  | cons q ps ih => simp only [List.cons_append, endsBeforeBraces, ih]

theorem isIdle_append (hp : p.Ends) (before : Piece) (ps qs : List Piece) :
    isIdle before (ps ++ [p] ++ qs) = isIdle before (ps ++ [p]) := by
  have he := endsBeforeBraces_append hp ps qs
  cases ps with
  | nil => simpa [isIdle] using congrArg (fun b => _ || _ && b) he
  | cons q ps => simp only [List.cons_append] at he ⊢; simp only [isIdle, he]

/-- The text of two lists of pieces with a space between them. -/
theorem textAfter_append (hp : p.Ends) (before : Piece) (ps qs : List Piece) :
    textAfter before (ps ++ [p] ++ .space :: qs) =
      textAfter before (ps ++ [p]) ++ (if isIdle p qs then [] else [.char ' ']) ++ text qs := by
  induction ps generalizing before with
  | nil =>
    cases p with
    | space => cases hp.isSpace
    | solid s t => simp [textAfter, text]
  | cons q ps ih =>
    cases q with
    | space =>
      have hi := isIdle_append hp before ps (.space :: qs)
      simp only [List.cons_append, textAfter]
      rw [hi, ih]
      simp only [List.append_assoc]
    | solid s t =>
      simp only [List.cons_append, textAfter]
      rw [ih]
      simp only [List.append_assoc]

/-- Two lists of pieces write to their texts, one after the other, with a space between at most. -/
theorem text_meet (hp : p.Ends) (ps qs : List Piece) :
    ∃ gap : Text, (gap = [] ∨ gap = [.char ' ']) ∧ text (meet (ps ++ [p]) qs) = text (ps ++ [p]) ++ gap ++ text qs := by
  by_cases hq : qs = []
  · exact ⟨[], .inl rfl, by simp [hq, text, textAfter]⟩
  · refine ⟨if isIdle p qs then [] else [.char ' '], by split <;> simp, ?_⟩
    rw [meet_of_ne (by simp) hq, text, textAfter_append hp]
    rfl

theorem text_concat {s : Shape} {t : Text} (before : Piece) (ps : List Piece) :
    ∃ u, textAfter before (ps ++ [.solid s t]) = u ++ t := by
  induction ps generalizing before with
  | nil => exact ⟨[], by simp [textAfter]⟩
  | cons q ps ih =>
    cases q with
    | space =>
      obtain ⟨u, hu⟩ := ih .space
      exact ⟨_, by rw [List.cons_append, textAfter, hu, List.append_assoc]⟩
    | solid s' t' =>
      obtain ⟨u, hu⟩ := ih (.solid s' t')
      exact ⟨_, by rw [List.cons_append, textAfter, hu, List.append_assoc]⟩

end Piece

/-- The pieces of a text, before they are written. -/
def piecesOf (s : Text) : List Piece := Piece.collapse (pieces (values (lexemes s)))

@[simp] theorem piecesOf_nil : piecesOf [] = [] := by
  rw [piecesOf, lexemes_nil]
  rfl

/-- What minifying writes for a text with short numbers. -/
def minified (css : Text) : Text := Piece.text (piecesOf (preprocess css))

theorem minify_eq_ok_iff {css m : Text} : minify css = .ok m ↔ tooLong? (preprocess css) = none ∧ minified css = m := by
  rw [← exists_components_iff, minify]
  cases hc : components css with
  | error t => simp [Except.map]
  | ok cs =>
    have hp : piecesOf (preprocess css) = Piece.collapse (pieces cs) := by
      rw [piecesOf, ← placelessAll_of_components hc, pieces_placelessAll]
    simp [Except.map, minified, hp, Piece.tidy_false]

theorem Component.piece_of_isTrivia {c : Component} (h : c.isTrivia = true) : c.piece = .space := by
  cases c with
  | leaf p t => cases t <;> first | rfl | cases h
  | _ => cases h

theorem collapse_dropWhile (cs : List Component) :
    Piece.collapse (pieces (cs.dropWhile Component.isTrivia)) = Piece.collapse (pieces cs) := by
  induction cs with
  | nil => rfl
  | cons c cs ih =>
    by_cases hc : c.isTrivia = true
    · rw [List.dropWhile_cons_of_pos hc, ih, pieces, Component.piece_of_isTrivia hc, Piece.collapse]
    · rw [List.dropWhile_cons_of_neg hc]

theorem Spacing.piecesOf_append {gap : Text} (h : Spacing gap) (v : Text) : piecesOf (gap ++ v) = piecesOf v := by
  rw [piecesOf, ← collapse_dropWhile, dropWhile_values, h.core_lexemes, ← dropWhile_values, collapse_dropWhile, piecesOf]

theorem Shut.piecesOf_append {s gap : Text} (h : Shut s) (hg : Spacing gap) (hn : gap ≠ []) (v : Text) :
    piecesOf (s ++ (gap ++ v)) = Piece.meet (piecesOf s) (piecesOf v) := by
  obtain ⟨t, ls, hl, ht⟩ := hg.exists_lexemes hn v
  have hp : pieces (values (lexemes (gap ++ v))) = .space :: pieces (values ls) := by
    rw [hl, values_leaf, pieces, Component.piece_of_isTrivia (by cases t <;> first | rfl | cases ht)]
  have hv : Piece.collapse (pieces (values ls)) = piecesOf v := by
    rw [← hg.piecesOf_append, piecesOf, hp, Piece.collapse]
  rw [piecesOf, h.values_append, pieces_append, hp, (Piece.collapse_append _ _).1, hv]
  rfl

theorem Component.Ends.exists_piece {c : Component} (h : c.Ends) :
    ∃ s u b, c.piece = .solid s (u ++ [b]) ∧ (Piece.solid s (u ++ [b])).Ends ∧ IsHard b := by
  cases c with
  | leaf p t =>
    rcases h with h | h
    · cases h
    · cases t with
      | literal u =>
        obtain rfl : u = [.char ';'] := by simpa [Component.isMark, Text.ofString] using h
        exact ⟨.semicolon, [], .char ';', rfl, .inr rfl, .inr (.inr rfl)⟩
      | _ => cases h
  | block p b cs =>
    rcases h with h | h
    · cases b with
      | curly => exact ⟨.braces, _, .char '\x7d', rfl, .inl rfl, .inr (.inl rfl)⟩
      | _ => cases h
    · cases h
  | function p name cs => rcases h with h | h <;> cases h

/-- The last piece of a shut text ends a rule, and so does its last character. -/
theorem Shut.exists_piecesOf {s : Text} (h : Shut s) :
    ∃ ps sh u b, piecesOf s = ps ++ [.solid sh (u ++ [b])] ∧ (Piece.solid sh (u ++ [b])).Ends ∧ IsHard b := by
  obtain ⟨cs, c, hv, hc⟩ := h.exists_values
  obtain ⟨sh, u, b, hp, he, hb⟩ := hc.exists_piece
  obtain ⟨ps, hps⟩ := (Piece.collapse_concat (pieces cs) he.isSpace).1
  exact ⟨ps, sh, u, b, by rw [piecesOf, hv, pieces_append, pieces, pieces, hp, hps], he, hb⟩

namespace Complete

variable {css gap : Text}

theorem piecesOf_append (h : Complete css) (hg : Spacing gap) (hn : gap ≠ []) (v : Text) :
    piecesOf (preprocess css ++ (gap ++ v)) = Piece.meet (piecesOf (preprocess css)) (piecesOf v) := by
  obtain ⟨body, tail, he, hb, ht⟩ := h
  rw [he, List.append_assoc, ← List.append_assoc tail]
  rcases hb with rfl | hb
  · have htail : piecesOf tail = [] := by simpa using ht.piecesOf_append []
    rw [List.nil_append, List.nil_append, (ht.append hg).piecesOf_append, htail, Piece.meet_nil_left]
  · have hbody : piecesOf (body ++ tail) = piecesOf body := by
      cases tail with
      | nil => rw [List.append_nil]
      | cons c tail => simpa using hb.piecesOf_append ht (List.cons_ne_nil c tail) []
    rw [hb.piecesOf_append (ht.append hg) (by simp [hn]), hbody]

theorem exists_piecesOf (h : Complete css) :
    piecesOf (preprocess css) = [] ∨
      ∃ ps sh u b, piecesOf (preprocess css) = ps ++ [.solid sh (u ++ [b])] ∧ (Piece.solid sh (u ++ [b])).Ends ∧ IsHard b := by
  obtain ⟨body, tail, he, rfl | hb, ht⟩ := h
  · left
    simpa [he] using ht.piecesOf_append []
  · right
    cases tail with
    | nil => simpa [he] using hb.exists_piecesOf
    | cons c tail =>
      have hp := hb.piecesOf_append ht (List.cons_ne_nil c tail) []
      rw [List.append_nil, piecesOf_nil, Piece.meet_nil_right] at hp
      rw [he, hp]
      exact hb.exists_piecesOf

theorem minified_eq_nil_or (h : Complete css) : minified css = [] ∨ ∃ u b, minified css = u ++ [b] ∧ IsHard b := by
  rcases h.exists_piecesOf with hp | ⟨ps, sh, u, b, hp, -, hb⟩
  · left
    rw [minified, hp]
    rfl
  · obtain ⟨v, hv⟩ := Piece.text_concat (s := sh) (t := u ++ [b]) .space ps
    exact .inr ⟨v ++ u, b, by rw [minified, hp, Piece.text, hv, List.append_assoc], hb⟩

/-- Spacing between two sheets comes down to a space at most. -/
theorem minified_append (h : Complete css) {lead : Text} (hl : Spacing lead) (hg : Spacing gap) (hn : gap ≠ [])
    {v w : Text} (hv : preprocess v = lead ++ (preprocess css ++ (gap ++ preprocess w))) :
    ∃ space : Text, (space = [] ∨ space = [.char ' ']) ∧ minified v = minified css ++ (space ++ minified w) := by
  rw [minified, hv, hl.piecesOf_append, h.piecesOf_append hg hn, minified, minified]
  rcases h.exists_piecesOf with hp | ⟨ps, sh, u, b, hp, he, -⟩
  · exact ⟨[], .inl rfl, by rw [hp]; rfl⟩
  · obtain ⟨space, hs, ht⟩ := Piece.text_meet he ps (piecesOf (preprocess w))
    exact ⟨space, hs, by rw [hp, ht, List.append_assoc]⟩

end Complete

end StylePrune.Css
