import Mathlib
import StylePrune.Proofs.Css.Resettling

/-!
Minifying twice. A minified sheet whose tokens can be told from its text is minified already; a sheet that ends inside
brackets and a string is not such a sheet, since the brackets that are put behind it become part of the string.
-/

set_option autoImplicit false

namespace StylePrune.Css

/-- What is true of the tree of every sheet. -/
structure LaidOut (cs : List Component) : Prop where
  beside : List.IsChain Beside (.opening .curly :: (tokensAll cs ++ [.closing .curly]))
  quotes : QuotesUrls (tokensAll cs)
  fits : LevelsAll Fits cs

section LaidOut

variable {x : Lexeme} {ls : List Lexeme}

theorem isChain_beside_closings (hx : x ≠ .leaf (.error .badString)) (bs : List Bracket) :
    List.IsChain Beside (x :: bs.map .closing) := by
  induction bs generalizing x with
  | nil => exact List.isChain_singleton x
  | cons b bs ih => exact List.isChain_cons_cons.2 ⟨⟨⟨.of_lead rfl x, fun he => absurd he hx⟩, isSound_closing b⟩, ih nofun⟩

/-- Brackets that are put behind the tokens of a text stand as if they were read there. -/
theorem isChain_beside_append (h : List.IsChain Meets (x :: (ls ++ [.closing .curly]))) (hs : ∀ l ∈ ls, l.IsSound)
    (bs : List Bracket) : List.IsChain Beside (x :: (ls ++ bs.map .closing)) := by
  induction ls generalizing x with
  | nil =>
    -- a broken string stands before the newline that broke it, so it is not the last token
    refine isChain_beside_closings ?_ bs
    rintro rfl
    cases (List.isChain_cons_cons.1 h).1.2 rfl
  | cons l ls ih =>
    obtain ⟨hl, hls⟩ := List.forall_mem_cons.1 hs
    obtain ⟨hm, h⟩ := List.isChain_cons_cons.1 h
    exact List.isChain_cons_cons.2 ⟨⟨hm, hl⟩, ih h hls⟩

theorem quotesUrls_closings (bs : List Bracket) : QuotesUrls (bs.map .closing) := by
  induction bs with
  | nil => trivial
  | cons b bs ih => exact quotesUrls_of_not rfl ih

theorem laidOut_of_components {css : Text} {cs : List Component} (h : components css = .ok cs) : LaidOut cs := by
  unfold components at h
  split at h
  · cases h
  · rename_i hshort
    obtain rfl := Except.ok.inj h
    have hls : (lex css).map Prod.snd = lexemes (preprocess css) := map_snd_lexFrom _ _
    have hp : ∀ t ∈ lex css, t.2.IsProper := fun t ht => isProper_of_mem_lex ht
    have hs : ∀ l ∈ lexemes (preprocess css), l.IsSound := fun l hl => by
      obtain ⟨t, ht, rfl⟩ := List.mem_map.1 (hls ▸ hl)
      exact ⟨hp t ht, List.findSome?_eq_none_iff.1 hshort t ht⟩
    obtain ⟨bs, hbs⟩ := exists_tokensAll_nest hp
    rw [hls] at hbs
    refine ⟨?_, ?_, levelsAll_fits_nest hp⟩
    · have hm : List.IsChain Meets (.opening .curly :: (lexemes (preprocess css) ++ [.closing .curly])) :=
        List.isChain_cons.2 ⟨fun y _ => Meets.of_bars (x := .opening .curly) rfl (by rintro ⟨⟩) y, isChain_lexemes _⟩
      have hb := isChain_beside_append hm hs (bs ++ [.curly])
      rwa [List.map_append, ← List.append_assoc, ← hbs] at hb
    · rw [hbs]
      exact (quotesUrls_lexemes _).append (quotesUrls_closings bs)

end LaidOut

theorem mem_mend {l : Lexeme} {ls : List Lexeme} (h : l ∈ mend ls) :
    (∃ x ∈ ls, l = x.settle) ∨ ∃ w, l = .leaf (.whitespace w) := by
  induction ls with
  | nil => cases h
  | cons x xs ih =>
    rcases List.mem_cons.1 h with rfl | h
    · exact .inl ⟨x, List.mem_cons_self, rfl⟩
    · have hl : l ∈ mend xs ∨ ∃ w, l = .leaf (.whitespace w) := by
        split at h
        · unfold Lexeme.breakLine at h
          split at h
          · rename_i he
            rcases List.mem_cons.1 h with rfl | h
            · exact .inr ⟨_, rfl⟩
            · exact .inl (he ▸ List.mem_cons_of_mem _ h)
          · rcases List.mem_cons.1 h with rfl | h
            · exact .inr ⟨_, rfl⟩
            · exact .inl h
        · exact .inl h
      rcases hl with hl | hl
      · exact (ih hl).imp_left fun ⟨y, hy, he⟩ => ⟨y, List.mem_cons_of_mem x hy, he⟩
      · exact .inr hl

theorem forall_of_isChain {R : Lexeme → Lexeme → Prop} {x : Lexeme} {ls : List Lexeme} (h : List.IsChain R (x :: ls)) :
    ∀ l ∈ ls, ∃ y, R y l := by
  induction ls generalizing x with
  | nil => exact List.forall_mem_nil _
  | cons l ls ih =>
    obtain ⟨hl, h⟩ := List.isChain_cons_cons.1 h
    exact List.forall_mem_cons.2 ⟨⟨x, hl⟩, ih h⟩

namespace LaidOut

variable {cs : List Component}

/-- The slim sheet comes back from its text, with newlines behind its broken strings. -/
theorem lexemes_bareAll (h : LaidOut cs) (hc : isClear (tokensAll (slimLevel false cs)) = true) :
    preprocess (bareAll (slimLevel false cs)) = bareAll (slimLevel false cs) ∧
      lexemes (bareAll (slimLevel false cs)) = tokensAll (breakLines (mendAll (slimLevel false cs))) := by
  have hl := legible_mend (isChain_slimLevel h.beside h.quotes false) hc
  rw [bareAll_eq, ← spell_mend]
  exact ⟨preprocess_of_isSeen hl.isSeen_spell, by rw [hl.lexemes_spell, mend_tokensAll]⟩

theorem tooLong?_bareAll (h : LaidOut cs) (hc : isClear (tokensAll (slimLevel false cs)) = true) :
    tooLong? (bareAll (slimLevel false cs)) = none := by
  have hchain := forall_of_isChain (isChain_slimLevel h.beside h.quotes false)
  rw [tooLong?, (h.lexemes_bareAll hc).2, ← mend_tokensAll]
  refine List.findSome?_eq_none_iff.2 fun l hl => ?_
  rcases mem_mend hl with ⟨x, hx, rfl⟩ | ⟨w, rfl⟩
  · obtain ⟨y, hy⟩ := hchain x (List.mem_append_left _ hx)
    rw [x.tooLong?_settle, hy.sound.short]
  · rfl

theorem minified_bareAll (h : LaidOut cs) (hc : isClear (tokensAll (slimLevel false cs)) = true) :
    minified (bareAll (slimLevel false cs)) = bareAll (slimLevel false cs) := by
  obtain ⟨hpre, hlex⟩ := h.lexemes_bareAll hc
  have hfits : LevelsAll Fits (breakLines (mendAll (slimLevel false cs))) :=
    (levelsAll_fits_mendAll _ (levelsAll_fits_slimLevel h.fits false)).breakLines
  obtain ⟨hj, hlevels, -⟩ := (isChain_tokensAll cs _ _ []).1 h.beside
  rw [minified, piecesOf, hpre, hlex, values_tokensAll hfits, pieces_placelessAll, ← Piece.tidy_false, pieces_eq_solids,
    tidy_solids, ← slimLevel, slimLevel_mend hj hlevels, bareAll_settleAll]

end LaidOut

/-- The tokens of the minified sheet can be told from the minified text. -/
def minifiesClearly (css : Text) : Bool :=
  match components css with
  | .ok cs => isClear (tokensAll (slimLevel false cs))
  | .error _ => true

/-- A sheet whose minified tokens can be told from the minified text minifies to a text that minifies to itself. -/
theorem minify_bind_minify {css : Text} (h : minifiesClearly css = true) : minify css >>= minify = minify css := by
  cases hcs : components css with
  | error t =>
    rw [minify, hcs]
    rfl
  | ok cs =>
    have hlaid := laidOut_of_components hcs
    have hc : isClear (tokensAll (slimLevel false cs)) = true := by rwa [minifiesClearly, hcs] at h
    rw [minify_eq_bareAll hcs]
    refine minify_eq_ok_iff.2 ⟨?_, hlaid.minified_bareAll hc⟩
    rw [(hlaid.lexemes_bareAll hc).1]
    exact hlaid.tooLong?_bareAll hc

/-- A unit that is written with an escape, a broken string, a URL in quotes, a range, and a block that the end closes. -/
def oddSheet : Text := "a > b \x7b w : 2\\65 ; c : \"x\n ; u : url( 'i' ) ; r : U+26 \x7d @media x \x7b p \x7b \x7d "

def oddMinified : Text := "a>b\x7bw:2\\65 ;c:\"[bad string]\n;u:url(\"i\");r:U+26\x7d@media x\x7bp\x7b\x7d\x7d"

theorem minify_oddSheet : minify oddSheet = .ok oddMinified ∧ minify oddMinified = .ok oddMinified := by
  have hm : minify oddSheet = .ok oddMinified := by cbv
  have hc : minifiesClearly oddSheet = true := by cbv
  have hb := minify_bind_minify hc
  rw [hm] at hb
  exact ⟨hm, hb⟩

/-- Inside a bracket a cut-off string takes up the bracket that is put behind it, one more each time. -/
theorem minify_cutString :
    minify "\x7b\"abc" = .ok "\x7b\"abc\x7d" ∧ minify "\x7b\"abc\x7d" = .ok "\x7b\"abc\x7d\x7d" := by
  constructor <;> cbv

end StylePrune.Css
