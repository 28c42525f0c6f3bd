import StylePrune.Proofs.Css.Nesting
import StylePrune.Proofs.Css.Offsets

/-!
Sheets without the marks of an HTML comment. The tokens of such a sheet are fine, and it reads as spans.
-/

set_option autoImplicit false

namespace StylePrune

theorem Text.includes_append {p : Text} (hp : p ≠ []) (a b : Text) : includes (a ++ p ++ b) p = true := by
  induction a with
  | nil =>
    cases p with
    | nil => exact absurd rfl hp
    | cons c p =>
      have h : after? (c :: p) (c :: (p ++ b)) = some b := after?_append (c :: p) b
      simp [includes, cutAt?, h]
  | cons c a ih =>
    simp only [includes, List.cons_append, cutAt?]
    split
    · rfl
    · simpa [includes] using ih

namespace Css

/-- Normalizing newlines makes no text that has no newline. -/
theorem exists_of_normalizeNewlines_eq_append {m : Text} (hm : ∀ c ∈ m, c ≠ '\n') {s b : Text}
    (h : normalizeNewlines s = m ++ b) : ∃ b', s = m ++ b' := by
  induction m generalizing s with
  | nil => exact ⟨s, rfl⟩
  | cons c m ih =>
    have hc := hm c List.mem_cons_self
    have hm := fun d hd => hm d (List.mem_cons_of_mem c hd)
    unfold normalizeNewlines at h
    split at h
    · cases h
    · exact absurd (List.cons.inj h).1.symm hc
    · rename_i d s _
      obtain ⟨hd, hs⟩ := List.cons.inj h
      obtain ⟨b', rfl⟩ := ih hm hs
      split at hd
      · exact absurd hd.symm hc
      · exact ⟨b', by rw [hd]; rfl⟩

theorem exists_of_normalizeNewlines_eq {m : Text} (hm : ∀ c ∈ m, c ≠ '\n') {s a b : Text}
    (h : normalizeNewlines s = a ++ m ++ b) : ∃ a' b', s = a' ++ m ++ b' := by
  fun_induction normalizeNewlines s generalizing a with
  | case1 =>
    obtain ⟨h, -⟩ := List.append_eq_nil_iff.1 h.symm
    obtain ⟨-, rfl⟩ := List.append_eq_nil_iff.1 h
    exact ⟨[], [], rfl⟩
  | case2 s ih =>
    cases a with
    | nil =>
      obtain ⟨b', hs⟩ := exists_of_normalizeNewlines_eq_append (s := '\r' :: '\n' :: s) hm (by rw [normalizeNewlines]; exact h)
      exact ⟨[], b', hs⟩
    | cons d a =>
      obtain ⟨a', b', rfl⟩ := ih (List.cons.inj h).2
      exact ⟨'\r' :: '\n' :: a', b', rfl⟩
  | case3 c s hs ih =>
    cases a with
    | nil =>
      obtain ⟨b', hs⟩ := exists_of_normalizeNewlines_eq_append (s := c :: s) hm (by rw [normalizeNewlines.eq_3 c s hs]; exact h)
      exact ⟨[], b', hs⟩
    | cons d a =>
      obtain ⟨a', b', rfl⟩ := ih (List.cons.inj h).2
      exact ⟨c :: a', b', rfl⟩

theorem exists_of_seen_eq {m : Text} (hm : ∀ c ∈ m, c ≠ '\uFFFD') {s a b : Text} (h : seen s = a ++ m ++ b) :
    ∃ a' b', s = a' ++ m ++ b' := by
  obtain ⟨x, b', rfl, hx, rfl⟩ := List.map_eq_append_iff.1 h
  obtain ⟨a', m', rfl, rfl, rfl⟩ := List.map_eq_append_iff.1 hx
  refine ⟨a', b', ?_⟩
  have hm' : seen m' = m' := by
    refine (List.map_congr_left fun c hc => ?_).trans (List.map_id m')
    have h := hm _ (List.mem_map_of_mem hc)
    split at h
    · exact absurd rfl h
    · rename_i hc
      exact if_neg hc
  rw [seen] at hm'
  rw [hm']

theorem Outcome.exists_of_literal_mem {c : CodePoint} {s u : Text} {x : List Lexeme × Text} (h : Outcome c s x)
    (hu : Lexeme.leaf (.literal u) ∈ x.1) : ∃ b, c :: s = u ++ b := by
  cases h with
  | leaf t r hc => exact ⟨r, hc u (Lexeme.leaf.inj (List.mem_singleton.1 hu)).symm⟩
  | cut x => cases x <;> simp [CutOff.lexemes, CutOff.leaf] at hu
  | function name r => simp at hu
  | opening b _ => simp at hu
  | closing b _ => simp at hu

/-- A literal is read where it stands in the text. -/
theorem exists_of_literal_mem_lexFrom {p q : Position} {s u : Text} (h : (q, Lexeme.leaf (.literal u)) ∈ lexFrom p s) :
    ∃ a b, s = a ++ u ++ b := by
  induction hl : s.length using Nat.strongRecOn generalizing s p with
  | ind n ih =>
    subst hl
    cases s with
    | nil => simp [lexFrom] at h
    | cons c s =>
      rw [lexFrom] at h
      rcases List.mem_append.1 h with h | h
      · obtain ⟨l, hl, he⟩ := List.mem_map.1 h
        obtain ⟨-, rfl⟩ := Prod.mk.inj he
        obtain ⟨b, hb⟩ := (outcome_readToken c s).exists_of_literal_mem hl
        exact ⟨[], b, hb⟩
      · obtain ⟨a, ha⟩ := readToken_suffix c s
        obtain ⟨x, y, he⟩ := ih _ (Nat.lt_succ_of_le (readToken_length c s)) h rfl
        refine ⟨c :: (a ++ x), y, ?_⟩
        rw [← ha, he]
        simp

/-- The marks of an HTML comment. -/
def marks : List Text := ["<!--", "-->"]

/-- A sheet that does not include a mark of an HTML comment has fine tokens. -/
theorem fine_of_mem_lex {css : Text} (h : ∀ m ∈ marks, Text.includes css m = false)
    (ht : (lex (normalizeNewlines css)).findSome? (fun t => t.2.tooLong?) = none) :
    ∀ x ∈ lex (normalizeNewlines css), x.2.Fine := by
  rintro ⟨q, l⟩ hx
  have unmarked (m : Text) (hm : m ∈ marks) : l ≠ .leaf (.literal m) := by
    rintro rfl
    have hn : m ≠ [] ∧ ∀ c ∈ m, c ≠ '\n' ∧ c ≠ '\uFFFD' := by
      rcases List.mem_pair.1 hm with rfl | rfl <;> simp [Text.ofString]
    rw [lex, preprocess_of_clean (clean_normalizeNewlines css)] at hx
    obtain ⟨a, b, he⟩ := exists_of_literal_mem_lexFrom hx
    obtain ⟨a, b, he⟩ := exists_of_seen_eq (fun c hc => (hn.2 c hc).2) he
    obtain ⟨a, b, rfl⟩ := exists_of_normalizeNewlines_eq (fun c hc => (hn.2 c hc).1) he
    have hi := h m hm
    rw [Text.includes_append hn.1] at hi
    cases hi
  exact ⟨List.findSome?_eq_none_iff.1 ht _ hx, unmarked _ (by simp [marks]), unmarked _ (by simp [marks])⟩

/-- A sheet that is accepted and has no marks of an HTML comment reads as spans. -/
theorem exists_reads_of_components {css : Text} (h : ∀ m ∈ marks, Text.includes css m = false) {cs : List Component}
    (hc : components (normalizeNewlines css) = .ok cs) :
    ∃ ss, Reads none ss [] ∧ textAll ss = seen (normalizeNewlines css) ∧ cs = componentsAll .first ss := by
  have ht : (lex (normalizeNewlines css)).findSome? (fun t => t.2.tooLong?) = none := by
    unfold components at hc
    split at hc
    · cases hc
    · assumption
  have hp := preprocess_of_clean (clean_normalizeNewlines css)
  obtain ⟨ss, r, hs, hr, -⟩ := exists_reads none (p := .first) (clean_seen.2 (clean_normalizeNewlines css)) (by
    rw [← hp]
    exact fine_of_mem_lex h ht)
  rcases hr.rest with rfl | ⟨b, r', hb, -⟩
  · rw [List.append_nil] at hs
    refine ⟨ss, hr, hs.symm, ?_⟩
    rw [hr.components_eq (by rw [hp, hs])] at hc
    exact (Except.ok.inj hc).symm
  · cases hb

end Css
end StylePrune
