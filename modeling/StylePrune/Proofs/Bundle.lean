import Mathlib
import StylePrune.Generation
import StylePrune.Proofs.Css.Marks
import StylePrune.Proofs.Css.Pieces
import StylePrune.Proofs.Css.Uses

/-!
The bundle of sheets that leave nothing open. Minifying puts their texts one after the other with a space
between at most, so the bundle is a sheet with the selectors of all of them in order.
-/

set_option autoImplicit false

namespace StylePrune

theorem Text.exists_of_includes {s p : Text} (h : includes s p = true) : ∃ a b, s = a ++ p ++ b := by
  obtain ⟨x, hx⟩ := Option.isSome_iff_exists.1 h
  exact ⟨x.1, x.2, eq_append_of_cutAt? hx⟩

namespace Css

section Separators

/-- The comment over a sheet ends where it should, unless the path in it ends it before. -/
theorem includes_pad {path : Text} (h : Text.includes path "*/" = false) :
    Text.includes (preprocess (" " ++ (path ++ " "))) "*/" = false := by
  rw [← Bool.not_eq_true]
  intro hi
  obtain ⟨a, b, he⟩ := Text.exists_of_includes hi
  obtain ⟨a, b, he⟩ := exists_of_normalizeNewlines_eq (by simp [Text.ofString]) he
  obtain ⟨a, b, he⟩ := exists_of_seen_eq (by simp [Text.ofString]) he
  cases a with
  | nil => simp [Text.ofString] at he
  | cons c a =>
    have he : path ++ (" " : Text) = a ++ ("*/" : Text) ++ b := (List.cons.inj he).2
    rcases List.eq_nil_or_concat b with rfl | ⟨b, d, rfl⟩
    · simpa [Text.ofString, List.getLast?_append] using congrArg List.getLast? he
    · rw [List.concat_eq_append, ← List.append_assoc] at he
      rw [(List.append_inj' he rfl).1, Text.includes_append (by simp [Text.ofString])] at h
      cases h

theorem preprocess_cons {c : CodePoint} (hc : c ≠ '\r' ∧ c ≠ '\x0c' ∧ c ≠ '\x00') (s : Text) :
    preprocess (c :: s) = c :: preprocess s := by
  have h := preprocess_append (a := [c]) (b := s) (.inl (by simp [hc.1]))
  have hp : preprocess [c] = [c] := by simp [preprocess, normalizeNewlines, hc]
  rw [← List.singleton_append, h, hp]
  rfl

theorem spacing_comment {path : Text} (h : Text.includes path "*/" = false) (s : Text) :
    ∃ gap, Spacing gap ∧ preprocess ("/* " ++ path ++ " */\n" ++ s) = gap ++ preprocess s := by
  refine ⟨.char '/' :: .char '*' :: (preprocess (" " ++ (path ++ " ")) ++ ("*/" ++ ("\n" : Text))),
    .comment (includes_pad h) (.space (by decide) .nil), ?_⟩
  have ho : ("/* " ++ path ++ " */\n" ++ s : Text) = .char '/' :: .char '*' ::
      ((" " ++ (path ++ " ") : Text) ++ (.char '*' :: .char '/' :: .char '\n' :: s)) := by simp [Text.ofString]
  rw [ho, preprocess_cons (by decide), preprocess_cons (by decide), preprocess_append (.inr (by simp)),
    preprocess_cons (by decide), preprocess_cons (by decide), preprocess_cons (by decide)]
  simp [Text.ofString]

theorem spacing_blankLines (css s : Text) :
    ∃ gap, Spacing gap ∧ gap ≠ [] ∧ preprocess (css ++ ("\n\n" ++ s)) = preprocess css ++ (gap ++ preprocess s) := by
  have hs : preprocess ("\n" ++ s) = .char '\n' :: preprocess s := preprocess_cons (by decide) s
  -- a carriage return at the end makes one newline with the line feed behind it
  by_cases hr : css.getLast? = some (.char '\r')
  · obtain ⟨t, rfl⟩ := List.getLast?_eq_some_iff.1 hr
    refine ⟨"\n", .space (by decide) .nil, by simp [Text.ofString], ?_⟩
    have hn : preprocess (.char '\r' :: .char '\n' :: ("\n" ++ s)) = .char '\n' :: preprocess ("\n" ++ s) := by
      simp [preprocess, normalizeNewlines]
    have ho : t ++ [.char '\r'] ++ ("\n\n" ++ s : Text) = t ++ (.char '\r' :: .char '\n' :: ("\n" ++ s : Text)) := by
      simp [Text.ofString]
    rw [ho, preprocess_append (.inr (by simp)), preprocess_append (.inr (by simp)), hn, hs]
    simp [preprocess, normalizeNewlines, Text.ofString]
  · refine ⟨"\n\n", .space (by decide) (.space (by decide) .nil), by simp [Text.ofString], ?_⟩
    rw [preprocess_append (.inl hr)]
    have ho : ("\n\n" ++ s : Text) = .char '\n' :: ("\n" ++ s : Text) := rfl
    rw [ho, preprocess_cons (by decide), hs]
    rfl

end Separators

/-- A sheet that leaves nothing open does so minified, if its minified form leaves nothing open. -/
theorem shut_minified {css : Text} (h : Complete css) (hm : Complete (minified css)) :
    minified css = [] ∨ Shut (preprocess (minified css)) := by
  refine h.minified_eq_nil_or.imp_right ?_
  rintro ⟨u, b, he, hb⟩
  have hs : preprocess [b] = [b] := by
    rcases hb with rfl | rfl | rfl <;> rfl
  refine hm.shut (u := preprocess u) ?_ hb
  rw [he, preprocess_append (.inr ?_), hs]
  rcases hb with rfl | rfl | rfl <;> simp

theorem Shut.preprocess_append {m : Text} (h : Shut (preprocess m)) (s : Text) :
    preprocess (m ++ s) = preprocess m ++ preprocess s := by
  refine Css.preprocess_append (.inl fun hr => ?_)
  obtain ⟨t, rfl⟩ := List.getLast?_eq_some_iff.1 hr
  obtain ⟨u, c, he, hc⟩ := h.exists_concat
  have hp : preprocess (t ++ [.char '\r']) = preprocess t ++ [.char '\n'] := Css.preprocess_append (.inr (by simp))
  obtain rfl := List.singleton_inj.1 (List.append_inj' (hp.symm.trans he) rfl).2
  rcases hc with hc | hc | hc <;> cases hc

/-- Behind a sheet that is empty or shut stands what a sheet says by itself. -/
theorem following {m space : Text} (h : m = [] ∨ Shut (preprocess m)) (hs : space = [] ∨ space = [.char ' '])
    {us : List Use} (hu : usesOf (preprocess m) = some us) (t : Text) :
    tooLong? (preprocess (m ++ (space ++ t))) = (tooLong? (preprocess m)).or (tooLong? (preprocess t)) ∧
      usesOf (preprocess (m ++ (space ++ t))) = (usesOf (preprocess t)).map (us ++ ·) := by
  have hg : Spacing space := by
    rcases hs with rfl | rfl
    · exact .nil
    · exact .space (by decide) .nil
  have ht : preprocess (space ++ t) = space ++ preprocess t := by
    rcases hs with rfl | rfl
    · rfl
    · exact preprocess_cons (by decide) t
  rcases h with rfl | h
  · have hp : preprocess [] = [] := rfl
    rw [hp, usesOf_nil] at hu
    obtain rfl := Option.some.inj hu
    rw [List.nil_append, ht, hg.tooLong?_append, hg.usesOf_append, hp]
    simp
  · rw [h.preprocess_append, ht, h.tooLong?_append, hg.tooLong?_append, h.usesOf_append hu, hg.usesOf_append]
    exact ⟨rfl, rfl⟩

end Css

namespace Generation

open Css

def source (files : List Cleaned) : Text := files.flatMap fun c => "/* " ++ c.file ++ " */\n" ++ c.css ++ "\n\n"

theorem preprocess_source_cons {f : Cleaned} (h : Text.includes f.file "*/" = false) (files : List Cleaned) :
    ∃ lead gap, Spacing lead ∧ Spacing gap ∧ gap ≠ [] ∧
      preprocess (source (f :: files)) = lead ++ (preprocess f.css ++ (gap ++ preprocess (source files))) := by
  obtain ⟨gap, hg, hn, hb⟩ := spacing_blankLines f.css (source files)
  obtain ⟨lead, hl, hc⟩ := spacing_comment h (f.css ++ ("\n\n" ++ source files))
  refine ⟨lead, gap, hl, hg, hn, ?_⟩
  rw [← hb, ← hc, source, List.flatMap_cons, ← source]
  simp only [List.append_assoc]

/-- A file that has a place of its own in a bundle: no comment ends in its name, and its sheet leaves nothing open,
as it is and minified. -/
structure Standalone (f : Cleaned) (sheet : Sheet) : Prop where
  named : Text.includes f.file "*/" = false
  complete : Complete f.css
  minified : ∃ m, minify f.css = .ok m ∧ Complete m ∧ Sheet.parse m = .ok sheet

theorem bundle_cons {f : Cleaned} {sheet : Sheet} (h : Standalone f sheet) (files : List Cleaned) :
    tooLong? (preprocess (source (f :: files))) = tooLong? (preprocess (source files)) ∧
      tooLong? (preprocess (minified (source (f :: files)))) = tooLong? (preprocess (minified (source files))) ∧
      usesOf (preprocess (minified (source (f :: files)))) =
        (usesOf (preprocess (minified (source files)))).map (sheet.uses ++ ·) := by
  obtain ⟨lead, gap, hl, hg, hn, hp⟩ := preprocess_source_cons h.named files
  obtain ⟨m, hm, hc, hs⟩ := h.minified
  obtain ⟨ht, rfl⟩ := minify_eq_ok_iff.1 hm
  have hu := Sheet.usesOf_of_parse hs
  refine ⟨by rw [hp, hl.tooLong?_append, h.complete.tooLong?_append hg, ht, Option.none_or], ?_⟩
  obtain ⟨space, hspace, he⟩ := h.complete.minified_append hl hg hn hp
  obtain ⟨hlong, huses⟩ := following (shut_minified h.complete hc) hspace hu (minified (source files))
  have hshort : tooLong? (preprocess (minified f.css)) = none := by
    obtain ⟨cs, hcs, -⟩ := Sheet.parse_eq_ok_iff.1 hs
    rw [← preprocess_normalizeNewlines]
    exact exists_components_iff.1 ⟨cs, hcs⟩
  rw [he]
  exact ⟨by rw [hlong, hshort, Option.none_or], huses⟩

/-- Files that have a place of their own do not interfere in a bundle: it is a sheet, and its selectors are theirs
in order. -/
theorem uses_bundle {files : List Cleaned} {sheets : List Sheet} (h : List.Forall₂ Standalone files sheets) :
    ∃ text sheet, bundle files = .ok text ∧ Sheet.parse text = .ok sheet ∧
      sheet.uses = sheets.flatMap Sheet.uses := by
  have hall : tooLong? (preprocess (source files)) = none ∧ tooLong? (preprocess (minified (source files))) = none ∧
      usesOf (preprocess (minified (source files))) = some (sheets.flatMap Sheet.uses) := by
    induction h with
    | nil =>
      have hp : preprocess (source []) = [] := rfl
      have hm : minified (source []) = [] := by rw [minified, hp, piecesOf_nil]; rfl
      have he : preprocess [] = [] := rfl
      simp [hp, hm, he, usesOf_nil]
    | @cons f sheet files sheets hf _ ih =>
      obtain ⟨hlong, hmin, huses⟩ := bundle_cons hf files
      rw [hlong, hmin, huses, ih.2.2]
      exact ⟨ih.1, ih.2.1, rfl⟩
  obtain ⟨hlong, hmin, huses⟩ := hall
  obtain ⟨sheet, hs, hu⟩ := Sheet.exists_parse hmin huses
  exact ⟨_, sheet, minify_eq_ok_iff.2 ⟨hlong, rfl⟩, hs, hu⟩

theorem uses_bundle_pair : ∃ text sheet,
    bundle [⟨"a.css", ".a\x7b\x7d\n/* end */", 14, 0⟩, ⟨"b.css", ".b\x7b\x7d .c > p\x7b\x7d", 14, 0⟩] = .ok text ∧
      Sheet.parse text = .ok sheet ∧ sheet.uses = ([(".a", none), (".b", none), (".c>p", none)] : List Use) := by
  obtain ⟨a, ha, hau⟩ : ∃ a, Sheet.parse ".a\x7b\x7d" = .ok a ∧ a.uses = ([(".a", none)] : List Use) :=
    exists_of_map_eq_ok (by cbv)
  obtain ⟨b, hb, hbu⟩ : ∃ b, Sheet.parse ".b\x7b\x7d.c>p\x7b\x7d" = .ok b ∧
      b.uses = ([(".b", none), (".c>p", none)] : List Use) :=
    exists_of_map_eq_ok (by cbv)
  have hfa : Standalone ⟨"a.css", ".a\x7b\x7d\n/* end */", 14, 0⟩ a :=
    { named := by cbv
      complete := ⟨".a\x7b\x7d", "\n/* end */", by cbv, .inr (shut_iff.2 (by cbv)),
        .space (by decide) (.comment (x := " end ") (by cbv) .nil)⟩
      minified := ⟨".a\x7b\x7d", by cbv, ⟨".a\x7b\x7d", [], by cbv, .inr (shut_iff.2 (by cbv)), .nil⟩, ha⟩ }
  have hfb : Standalone ⟨"b.css", ".b\x7b\x7d .c > p\x7b\x7d", 14, 0⟩ b :=
    { named := by cbv
      complete := ⟨".b\x7b\x7d .c > p\x7b\x7d", [], by cbv, .inr (shut_iff.2 (by cbv)), .nil⟩
      minified := ⟨".b\x7b\x7d.c>p\x7b\x7d", by cbv,
        ⟨".b\x7b\x7d.c>p\x7b\x7d", [], by cbv, .inr (shut_iff.2 (by cbv)), .nil⟩, hb⟩ }
  obtain ⟨text, sheet, ht, hs, hu⟩ := uses_bundle (.cons hfa (.cons hfb .nil))
  exact ⟨text, sheet, ht, hs, by simp [hu, hau, hbu]⟩

/-- A sheet that leaves a block open takes the next one into it. -/
example : (bundle [⟨"a.css", ".a\x7bcolor:red", 12, 0⟩, ⟨"b.css", ".b\x7bcolor:blue\x7d", 14, 0⟩]).toOption =
    some ".a\x7bcolor:red .b\x7bcolor:blue\x7d\x7d" := by cbv

end Generation
end StylePrune
