import Mathlib
import StylePrune.Generation
import StylePrune.Proofs.Css.Marks
import StylePrune.Proofs.Css.Trees

/-!
Cleaning a sheet is a deletion: the cleaned text is a sheet again, with the selectors of the pruned tree,
and cleaning it once more changes nothing.
-/

set_option autoImplicit false

namespace StylePrune.Css

theorem Reads.clean {k : Option Bracket} {ss : List Span} {r : Text} (h : Reads k ss r) :
    ∀ c ∈ textAll ss, c ≠ '\r' ∧ c ≠ '\x0c' := by
  have closer (b : Bracket) : ∀ c ∈ [b.closer], c ≠ '\r' ∧ c ≠ '\x0c' := by cases b <;> simp [Bracket.closer]
  induction h with
  | nil => simp
  | stop => simp
  | leaf ht _ ih => exact List.forall_mem_append.2 ⟨ht.clean, ih⟩
  | stray _ _ ih => exact List.forall_mem_append.2 ⟨closer _, ih⟩
  | cut ht => simpa [Span.text] using ht.clean
  | closed ht _ _ ihc ih =>
    rw [textAll_cons, Span.text, if_pos rfl]
    exact List.forall_mem_append.2 ⟨List.forall_mem_append.2 ⟨List.forall_mem_append.2 ⟨ht.clean, ihc⟩, closer _⟩, ih⟩
  | unclosed ht _ ihc => simpa [Span.text] using List.forall_mem_append.2 ⟨ht.clean, ihc⟩

/-- The braces at the end of a text. -/
theorem exists_append_braces (s : Text) : ∃ v m, s = v ++ braces m ∧ v.getLast? ≠ some Bracket.curly.closer := by
  induction s using List.reverseRecOn with
  | nil => exact ⟨[], 0, rfl, nofun⟩
  | append_singleton s c ih =>
    by_cases hc : c = Bracket.curly.closer
    · obtain ⟨v, m, rfl, hv⟩ := ih
      exact ⟨v, m + 1, by rw [hc, braces_add, List.append_assoc, braces_one], hv⟩
    · exact ⟨s ++ [c], 0, (List.append_nil _).symm, by simpa using hc⟩

/-- A sheet without the marks of an HTML comment reads back. -/
theorem Sheet.faithful {css : Text} (hm : ∀ m ∈ marks, Text.includes css m = false) {sheet : Sheet}
    (h : Sheet.parse css = .ok sheet) : Faithful (.open 0) sheet.children sheet.trailing := by
  obtain ⟨cs, hc, hr⟩ := Sheet.parse_eq_ok_iff.1 h
  obtain ⟨ss, hs, ht, rfl⟩ := exists_reads_of_components hm hc
  obtain ⟨v, m, hv, hlast⟩ := exists_append_braces (textAll ss)
  have hlen : (normalizeNewlines css).length = v.length + (m - 0) := by
    rw [← length_seen, ← ht, hv, List.length_append, length_braces, Nat.sub_zero]
  refine readsBack ss (.open 0) (normalizeNewlines css) [] [] _ _ _ hs (by simp [ht]) ?_ hr
  exact ⟨0, v, m, rfl, Nat.le_refl 0, by simpa [braces] using hv, hlast, hlen⟩

/-- A tree that reads back is read again from its text. -/
theorem Faithful.parse_render {sheet : Sheet} (h : Faithful (.open 0) sheet.children sheet.trailing) :
    ∃ again, Sheet.parse sheet.render = .ok again ∧ again.trailing = sheet.trailing ∧
      Agrees sheet.children again.children := by
  obtain ⟨ss, ⟨b, hb, he, hs⟩, hr⟩ := h.rereads
  obtain rfl := Nat.le_zero.1 hb
  have ht : textAll ss = seen sheet.render := List.append_cancel_right he
  have hc : ∀ c ∈ sheet.render, c ≠ '\r' ∧ c ≠ '\x0c' := clean_seen.1 (ht ▸ hs.clean)
  have hn := normalizeNewlines_of_clean hc
  obtain ⟨ms, hread, ha⟩ := hr [] [] rfl
  refine ⟨⟨ms, sheet.trailing⟩, Sheet.parse_eq_ok_iff.2 ⟨componentsAll .first ss, ?_, ?_⟩, rfl, ha⟩
  · rw [hn]
    exact hs.components_eq (by rw [preprocess_of_clean hc, ht])
  · rw [hn]
    rwa [List.nil_append, List.append_nil] at hread

/-- Nodes that agree with pruned ones have nothing left to prune. -/
theorem Agrees.pruneAll {st : Statuses} {ns ms : List Node} (h : Agrees (pruneAll st ns).1 ms) :
    Css.pruneAll st ms = (ms, 0) := by
  refine pruneAll_of_alive st ms fun b hb => ?_
  have hs : b.selectors ∈ (blocksAll (Css.pruneAll st ns).1).map Block.selectors :=
    h.selectors ▸ List.mem_map_of_mem hb
  obtain ⟨c, hc, he⟩ := List.mem_map.1 hs
  rw [blocksAll_pruneAll, List.mem_filter] at hc
  rw [← Block.isDead_congr he]
  simpa using hc.2

end Css

namespace Generation

open Css

/-- The cleaned text of a sheet without the marks of an HTML comment is a sheet. It has the selectors of the
pruned tree under the same media, and cleaning it again takes nothing away. -/
theorem clean_clean {css : Text} (hm : ∀ m ∈ marks, Text.includes css m = false) {sheet : Sheet}
    (h : Sheet.parse css = .ok sheet) (st : Statuses) :
    ∃ text removed again, clean st css = .ok (text, removed) ∧ Sheet.parse text = .ok again ∧
      again.uses = (sheet.prune st).1.uses ∧ clean st text = .ok (text, 0) := by
  have hf : Faithful (.open 0) (sheet.prune st).1.children (sheet.prune st).1.trailing := (sheet.faithful hm h).prune st
  obtain ⟨again, hp, ht, ha⟩ := hf.parse_render
  refine ⟨(sheet.prune st).1.render, (sheet.prune st).2, again, by rw [clean, h]; rfl, hp, ha.uses none, ?_⟩
  have hprune : again.prune st = (again, 0) := by
    rw [Sheet.prune, Agrees.pruneAll ha]
  have hrender : again.render = (sheet.prune st).1.render := by
    rw [Sheet.render, Sheet.render, ha.render, ht]
  simp [clean, hp, Except.map, hprune, hrender]

/-- A group and a rule in it that the end of the sheet closes. -/
def openGroup : Text := "@layer\x7b.y\x7b\x7d.z\x7b"

theorem selectors_openGroup :
    (Sheet.parse openGroup).map (·.blocks.map Block.selectors) = .ok [[(".y" : Text)], [".z"]] := by cbv

/-- Of the open group the dead rule goes and the other one stays. -/
theorem clean_clean_openGroup :
    let st : Statuses := Table.ofList [(".y", .unused)]
    (∀ m ∈ marks, Text.includes openGroup m = false) ∧ ∃ text removed again,
      clean st openGroup = .ok (text, removed) ∧ Sheet.parse text = .ok again ∧
        again.uses.map Prod.fst = [(".z" : Text)] ∧ clean st text = .ok (text, 0) := by
  intro st
  have hm : ∀ m ∈ marks, Text.includes openGroup m = false := by decide
  obtain ⟨sheet, hp, hs⟩ := exists_of_map_eq_ok selectors_openGroup
  obtain ⟨text, removed, again, ht, hp', hu, hc⟩ := clean_clean hm hp st
  refine ⟨hm, text, removed, again, ht, hp', ?_, hc⟩
  obtain ⟨y, bs, hb, hy, hbs⟩ := List.map_eq_cons_iff.1 hs
  obtain ⟨z, bs, rfl, hz, hbs⟩ := List.map_eq_cons_iff.1 hbs
  obtain rfl := List.map_eq_nil_iff.1 hbs
  have he : Selector.isEligible ".y" = true := by decide
  have hyd : y.isDead st = true := (Block.isDead_iff st y).2 (by simpa [hy] using ⟨he, rfl⟩)
  have hzd : z.isDead st = false := by
    rw [Bool.eq_false_iff, Ne, Block.isDead_iff]
    rintro ⟨-, h⟩
    cases (h ".z" (by simp [hz])).2
  rw [hu, Sheet.map_fst_uses, Sheet.blocks_prune, hb]
  simp [hyd, hzd, hz]

end Generation
end StylePrune
