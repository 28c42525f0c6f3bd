import StylePrune.Css.Reader

/-!
Positions and offsets. Newlines in one form and NUL characters as they are leave a text with the
positions that the reader of tokens sees, and the position after a part of the text maps back to its length.
-/

set_option autoImplicit false

namespace StylePrune.Css

/-- A text as the reader of tokens sees it. -/
def seen (s : Text) : Text := s.map fun (c : CodePoint) => if c = '\x00' then '\uFFFD' else c

@[simp] theorem seen_append (s t : Text) : seen (s ++ t) = seen s ++ seen t := List.map_append

@[simp] theorem length_seen (s : Text) : (seen s).length = s.length := List.length_map ..

theorem seen_take (n : Nat) (s : Text) : seen (s.take n) = (seen s).take n := List.map_take

theorem seen_drop (n : Nat) (s : Text) : seen (s.drop n) = (seen s).drop n := List.map_drop

theorem normalizeNewlines_of_clean {s : Text} (h : ∀ c ∈ s, c ≠ '\r' ∧ c ≠ '\x0c') : normalizeNewlines s = s := by
  fun_induction normalizeNewlines s with
  | case1 => rfl
  | case2 s ih => exact absurd rfl (h '\r' List.mem_cons_self).1
  | case3 c s _ ih =>
    have hc := h c List.mem_cons_self
    rw [ih fun d hd => h d (List.mem_cons_of_mem c hd)]
    simp [hc]

theorem clean_normalizeNewlines (s : Text) : ∀ c ∈ normalizeNewlines s, c ≠ '\r' ∧ c ≠ '\x0c' := by
  fun_induction normalizeNewlines s with
  | case1 => simp
  | case2 s ih => simpa using ih
  | case3 c s _ ih =>
    intro d hd
    rcases List.mem_cons.1 hd with rfl | hd
    · split
      · decide
      · rename_i h
        exact not_or.1 h
    · exact ih d hd

theorem clean_seen {s : Text} : (∀ c ∈ seen s, c ≠ '\r' ∧ c ≠ '\x0c') ↔ ∀ c ∈ s, c ≠ '\r' ∧ c ≠ '\x0c' := by
  have clean (c : CodePoint) :
      ((if c = '\x00' then '\uFFFD' else c : CodePoint) ≠ '\r' ∧ (if c = '\x00' then '\uFFFD' else c : CodePoint) ≠ '\x0c') ↔
        c ≠ '\r' ∧ c ≠ '\x0c' := by
    by_cases hc : c = '\x00'
    · subst hc
      decide
    · simp [hc]
  simp only [seen, List.forall_mem_map, clean]

/-- What the reader of tokens sees of a text with newlines in one form. -/
theorem preprocess_of_clean {s : Text} (h : ∀ c ∈ s, c ≠ '\r' ∧ c ≠ '\x0c') : preprocess s = seen s :=
  normalizeNewlines_of_clean (clean_seen.2 h)

theorem normalizeNewlines_seen (s : Text) : normalizeNewlines (seen s) = seen (normalizeNewlines s) := by
  fun_induction normalizeNewlines s with
  | case1 => rfl
  | case2 s ih =>
    have h : seen ('\r' :: '\n' :: s) = .char '\r' :: .char '\n' :: seen s := rfl
    rw [h, normalizeNewlines, ih]
    rfl
  | case3 c s hs ih =>
    have h : seen (c :: s) = (if c = '\x00' then .char '\uFFFD' else c) :: seen s := rfl
    have hn (r : Text) (hc : (if c = '\x00' then .char '\uFFFD' else c) = CodePoint.char '\r')
        (hr : seen s = .char '\n' :: r) : False := by
      cases s with
      | nil => cases hr
      | cons d s =>
        have hd : (if d = '\x00' then .char '\uFFFD' else d) = CodePoint.char '\n' := (List.cons.inj hr).1
        split at hc
        · cases hc
        · split at hd
          · cases hd
          · exact hs s hc (by rw [hd])
    rw [h, normalizeNewlines.eq_3 _ _ hn, ih]
    by_cases hc : c = '\x00'
    · subst hc
      rfl
    · have hf : (if c = '\r' ∨ c = '\x0c' then .char '\n' else c) ≠ CodePoint.char '\x00' := by
        split
        · decide
        · exact hc
      simp [seen, hc, hf]

/-- Newlines in one form do not change what the reader of tokens sees. -/
theorem preprocess_normalizeNewlines (s : Text) : preprocess (normalizeNewlines s) = preprocess s := by
  rw [preprocess_of_clean (clean_normalizeNewlines s)]
  exact (normalizeNewlines_seen s).symm

/-- Newlines come in one form in each of two texts, unless a newline of two characters lies across them. -/
theorem normalizeNewlines_append {a b : Text} (h : a.getLast? ≠ some (.char '\r') ∨ b.head? ≠ some (.char '\n')) :
    normalizeNewlines (a ++ b) = normalizeNewlines a ++ normalizeNewlines b := by
  have tail {c : CodePoint} {s : Text} (h : (c :: s).getLast? ≠ some (.char '\r') ∨ b.head? ≠ some (.char '\n')) :
      s.getLast? ≠ some (.char '\r') ∨ b.head? ≠ some (.char '\n') := by
    refine h.imp_left fun h => ?_
    cases s with
    | nil => simp
    | cons d s => rwa [List.getLast?_cons_cons] at h
  fun_induction normalizeNewlines a with
  | case1 => rfl
  | case2 s ih =>
    rw [List.cons_append, List.cons_append, normalizeNewlines, ih (tail (tail h)), List.cons_append]
  | case3 c s hs ih =>
    have hn (r : Text) (hc : c = '\r') (hr : s ++ b = .char '\n' :: r) : False := by
      subst hc
      cases s with
      | nil =>
        rcases h with h | h
        · exact h rfl
        · rw [List.nil_append] at hr
          simp [hr] at h
      | cons d s => exact hs s rfl (by rw [(List.cons.inj hr).1])
    rw [List.cons_append, normalizeNewlines.eq_3 _ _ hn, ih (tail h), List.cons_append]

theorem preprocess_append {a b : Text} (h : a.getLast? ≠ some (.char '\r') ∨ b.head? ≠ some (.char '\n')) :
    preprocess (a ++ b) = preprocess a ++ preprocess b := by
  have eq_of {c d : CodePoint} (hd : d ≠ '\uFFFD') (hc : (if c = '\x00' then .char '\uFFFD' else c) = d) : c = d := by
    split at hc
    · exact absurd hc.symm hd
    · exact hc
  have hs : (seen a).getLast? ≠ some (.char '\r') ∨ (seen b).head? ≠ some (.char '\n') := by
    refine h.imp (fun h hr => h ?_) fun h hn => h ?_
    · rw [seen, List.getLast?_map] at hr
      obtain ⟨c, hc, hr⟩ := Option.map_eq_some_iff.1 hr
      rw [hc, eq_of (by decide) hr]
    · rw [seen, List.head?_map] at hn
      obtain ⟨c, hc, hn⟩ := Option.map_eq_some_iff.1 hn
      rw [hc, eq_of (by decide) hn]
  exact (congrArg normalizeNewlines (seen_append a b)).trans (normalizeNewlines_append hs)

namespace LinedText

theorem linesAfter_seen (n : Nat) (s : Text) : linesAfter n (seen s) = linesAfter n s := by
  induction s generalizing n with
  | nil => rfl
  | cons c s ih =>
    have hs : seen (c :: s) = (if c = '\x00' then .char '\uFFFD' else c) :: seen s := rfl
    rw [hs]
    by_cases hc : c = '\x00'
    · subst hc
      simp [linesAfter, ih]
    · simp [linesAfter, ih, hc]

theorem linesAfter_append (n : Nat) (s t : Text) :
    linesAfter n (s ++ t) = linesAfter n s ++ linesAfter (n + s.length) t := by
  induction s generalizing n with
  | nil => rfl
  | cons c s ih =>
    simp only [List.cons_append, linesAfter, ih, List.length_cons]
    have : n + 1 + s.length = n + (s.length + 1) := by omega
    rw [this]
    split <;> rfl

/-- The position after a text that starts at offset `n` in a line that starts at offset `a`. -/
theorem past_eq (s : Text) {l a n : Nat} (h : a ≤ n) :
    (linesAfter n s).getLastD a ≤ n + s.length ∧
      (Position.mk l (n - a + 1)).past s =
        ⟨l + (linesAfter n s).length, n + s.length - (linesAfter n s).getLastD a + 1⟩ := by
  induction s generalizing l a n with
  | nil => exact ⟨h, rfl⟩
  | cons c s ih =>
    by_cases hc : c = '\n'
    · obtain ⟨hl, hp⟩ := ih (l := l + 1) (Nat.le_refl (n + 1))
      have he : (Position.mk l (n - a + 1)).past (c :: s) = (Position.mk (l + 1) (n + 1 - (n + 1) + 1)).past s := by
        simp [Position.past, Position.step, hc]
      rw [he, hp]
      simp only [linesAfter, hc, if_true, List.getLastD_cons, List.length_cons]
      refine ⟨by omega, ?_⟩
      congr 1 <;> omega
    · obtain ⟨hl, hp⟩ := ih (l := l) (n := n + 1) (Nat.le_succ_of_le h)
      have he : (Position.mk l (n - a + 1)).past (c :: s) = (Position.mk l (n + 1 - a + 1)).past s := by
        have : n - a + 1 + 1 = n + 1 - a + 1 := by omega
        simp [Position.past, Position.step, hc, this]
      rw [he, hp]
      simp only [linesAfter, hc, if_false, List.length_cons]
      refine ⟨by omega, ?_⟩
      congr 1
      omega

theorem getD_length_append (a : Nat) (xs ys : List Nat) : (a :: (xs ++ ys)).getD xs.length 0 = xs.getLastD a := by
  induction xs generalizing a with
  | nil => rfl
  | cons x xs ih =>
    rw [List.cons_append, List.length_cons, List.getD_cons_succ, ih, List.getLastD_cons]

theorem index_past {s t u : Text} (h : seen s = t ++ u) : (ofText s).index (Position.first.past t) = t.length := by
  obtain ⟨hl, hp⟩ := past_eq t (l := 1) (Nat.le_refl 0)
  have hs : linesAfter 0 s = linesAfter 0 t ++ linesAfter t.length u := by
    rw [← linesAfter_seen, h, linesAfter_append, Nat.zero_add]
  have hf : Position.first.past t = _ := hp
  rw [hf]
  simp only [index, ofText, hs, Nat.add_sub_cancel_left, getD_length_append]
  omega

theorem seen_slice (s : Text) (i j : Nat) : seen ((ofText s).slice i j) = ((seen s).drop i).take (j - i) := by
  rw [slice, seen_take, seen_drop]
  rfl

theorem slice_append (src : LinedText) {i j k : Nat} (h₁ : i ≤ j) (h₂ : j ≤ k) :
    src.slice i j ++ src.slice j k = src.slice i k := by
  have hd : (src.text.drop i).drop (j - i) = src.text.drop j := by
    rw [List.drop_drop]
    congr 1
    omega
  have ht : k - i = (j - i) + (k - j) := by omega
  simp only [slice, ht, List.take_add, hd]

end LinedText

end StylePrune.Css
