import Mathlib.Algebra.Group.Nat.Defs
import StylePrune.Generation
import StylePrune.Proofs.Css.Offsets
import StylePrune.Proofs.Css.Prelude
import StylePrune.Proofs.Utf8

/-!
Where the characters of a cleaned sheet come from: from the sheet itself, but for the braces of its groups. So
what was read from bytes can be written as bytes.
-/

set_option autoImplicit false

namespace StylePrune

namespace Utf8

variable {k low high acc : Nat} {b : UInt8} {bs : Bytes} {c : CodePoint}

theorem exists_of_readTail (hl : 0x80 ≤ low) (hh : high ≤ 0xBF) (h : (readTail (k + 1) low high acc bs).1 = some c) :
    ∃ n, c = .ofNat n ∧ (acc * 64 + (low - 0x80)) * 64 ^ k ≤ n ∧ n < (acc * 64 + (high - 0x80) + 1) * 64 ^ k := by
  induction k generalizing low high acc bs with
  | zero =>
    cases bs with
    | nil => cases h
    | cons b bs =>
      rw [readTail] at h
      split at h
      · exact ⟨_, (Option.some.inj h).symm, by omega, by omega⟩
      · cases h
  | succ k ih =>
    cases bs with
    | nil => cases h
    | cons b bs =>
      rw [readTail] at h
      split at h
      · obtain ⟨n, hc, hle, hlt⟩ := ih (by omega) (by omega) h
        rw [Nat.pow_succ', ← Nat.mul_assoc, ← Nat.mul_assoc]
        exact ⟨n, hc, Nat.le_trans (Nat.mul_le_mul_right _ (by omega)) hle,
          Nat.lt_of_lt_of_le hlt (Nat.mul_le_mul_right _ (by omega))⟩
      · cases h

theorem isSome_char?_ofNat {n : Nat} (h : n < 0xD800 ∨ 0xE000 ≤ n) : (CodePoint.ofNat n).char?.isSome := by
  rw [CodePoint.ofNat, dif_neg (by omega)]
  rfl

/-- A strict reading gives characters and no halves. -/
theorem isSome_char?_of_readChar (h : (readChar false b bs).1 = some c) : c.char?.isSome := by
  have tail {k low high acc : Nat} (hl : 0x80 ≤ low) (hh : high ≤ 0xBF)
      (hn : (acc * 64 + (high - 0x80) + 1) * 64 ^ k ≤ 0xD800 ∨ 0xE000 ≤ (acc * 64 + (low - 0x80)) * 64 ^ k)
      (h : (readTail (k + 1) low high acc bs).1 = some c) : c.char?.isSome := by
    obtain ⟨n, rfl, hle, hlt⟩ := exists_of_readTail hl hh h
    exact isSome_char?_ofNat (by omega)
  have hb := b.toNat_lt
  unfold readChar at h
  simp only at h
  split at h
  · obtain rfl := Option.some.inj h
    exact isSome_char?_ofNat (by omega)
  split at h
  · cases h
  split at h
  · exact tail (by omega) (by omega) (by omega) h
  split at h
  · exact tail (by omega) (by omega) (by omega) h
  split at h
  · exact tail (by omega) (by simp) (by simp) h
  split at h
  · exact tail (by omega) (by omega) (by omega) h
  split at h
  · exact tail (by omega) (by omega) (by omega) h
  split at h
  · exact tail (by omega) (by omega) (by omega) h
  split at h
  · exact tail (by omega) (by omega) (by omega) h
  · cases h

theorem isSome_char?_of_mem_units (h : some c ∈ units false bs) : c.char?.isSome := by
  fun_induction units false bs with
  | case1 => cases h
  | case2 b bs ih =>
    rcases List.mem_cons.1 h with hc | hc
    · exact isSome_char?_of_readChar hc.symm
    · exact ih hc

theorem isSome_char?_of_mem_decodeLossy (h : c ∈ decodeLossy bs) : c.char?.isSome := by
  obtain ⟨o, ho, rfl⟩ := List.mem_map.1 h
  cases o with
  | none => rfl
  | some c => exact isSome_char?_of_mem_units ho

theorem isSome_encode?_iff {s : Text} : (encode? s).isSome ↔ ∀ c ∈ s, c.char?.isSome := by
  rw [encode?]
  split
  · rename_i h
    simpa using h
  · rename_i h
    simpa using h

end Utf8

namespace Css

theorem renderAll_append (ns ms : List Node) : renderAll (ns ++ ms) = renderAll ns ++ renderAll ms := by
  induction ns with
  | nil => rfl
  | cons n ns ih => rw [List.cons_append, renderAll, renderAll, ih, List.append_assoc]

mutual
theorem Node.render_prune_sublist (st : Statuses) (n : Node) :
    (renderAll (n.prune st).1.toList).Sublist n.render := by
  cases n with
  | block b =>
    by_cases hd : b.isDead st <;> simp [Node.prune, renderAll, hd]
  | group g cs trailing =>
    have ih := render_pruneAll_sublist st cs
    simp only [Node.prune]
    split
    · simp only [Option.toList_some, renderAll, Node.render, List.append_nil]
      exact ((((List.Sublist.refl _).append (ih.cons_cons _)).append_right _).append_right _)
    · exact List.nil_sublist _
  | statement s => simp [Node.prune, renderAll]

/-- Pruning takes characters away and puts none in. -/
theorem render_pruneAll_sublist (st : Statuses) (ns : List Node) :
    (renderAll (pruneAll st ns).1).Sublist (renderAll ns) := by
  cases ns with
  | nil => exact List.nil_sublist _
  | cons n ns =>
    simp only [pruneAll, renderAll_append, renderAll]
    exact (n.render_prune_sublist st).append (render_pruneAll_sublist st ns)
end

theorem mem_normalizeNewlines {s : Text} {c : CodePoint} (h : c ∈ normalizeNewlines s) : c ∈ s ∨ c = '\n' := by
  fun_induction normalizeNewlines s with
  | case1 => cases h
  | case2 s ih =>
    rcases List.mem_cons.1 h with h | h
    · exact .inr h
    · exact (ih h).imp_left fun h => by simp [h]
  | case3 c' s hne ih =>
    rcases List.mem_cons.1 h with h | h
    · split at h
      · exact .inr h
      · exact .inl (by simp [h])
    · exact (ih h).imp_left fun h => by simp [h]

theorem render_statementOf (leading source name : Text) (prelude : List Component) :
    (Node.statement (statementOf leading source name prelude)).render = leading ++ source := by
  by_cases h : name = "import" <;> simp [statementOf, h, Node.render]

namespace LinedText

variable {P : CodePoint → Prop} {src : LinedText} {rules : List Rule} {pending : Text} {stop : Nat}

theorem forall_mem_slice (hs : ∀ c ∈ src.text, P c) (i j : Nat) : ∀ c ∈ src.slice i j, P c :=
  fun c hc => hs c (List.mem_of_mem_drop (List.mem_of_mem_take hc))

/-- Nodes are made of slices of the sheet and of braces. -/
theorem forall_mem_render_read {r : List Node × Text} (h : src.read rules pending stop = .ok r)
    (hs : ∀ c ∈ src.text, P c) (hopen : P '\x7b') (hclose : P '\x7d') (hp : ∀ c ∈ pending, P c) :
    ∀ c ∈ renderAll r.1 ++ r.2, P c := by
  have node {n : Node} {rest : List Node × Text} (hn : ∀ c ∈ n.render, P c)
      (hrest : ∀ c ∈ renderAll rest.1 ++ rest.2, P c) : ∀ c ∈ renderAll (n :: rest.1) ++ rest.2, P c := by
    rw [renderAll, List.append_assoc]
    exact List.forall_mem_append.2 ⟨hn, hrest⟩
  have slice := forall_mem_slice hs
  have nil : ∀ c ∈ ([] : Text), P c := List.forall_mem_nil _
  have statement {leading : Text} (name : Text) (prelude : List Component) (i j : Nat) (hl : ∀ c ∈ leading, P c) :
      ∀ c ∈ (Node.statement (statementOf leading (src.slice i j) name prelude)).render, P c := by
    rw [render_statementOf]
    exact List.forall_mem_append.2 ⟨hl, slice i j⟩
  fun_induction LinedText.read src rules pending stop generalizing r with
  | case1 =>
    obtain rfl := Except.ok.inj h
    simpa [renderAll] using hp
  | case2 =>
    rename_i ih
    exact ih h (List.forall_mem_append.2 ⟨hp, slice _ _⟩)
  | case3 => cases h
  | case4 => cases h
  | case5 =>
    rename_i ih
    obtain ⟨rest, hr, rfl⟩ := exists_of_map_eq_ok h
    exact node (List.forall_mem_append.2 ⟨hp, slice _ _⟩) (ih hr nil)
  | case6 => cases h
  | case7 =>
    rename_i hc ihc ih
    obtain ⟨rest, hr, rfl⟩ := exists_of_map_eq_ok h
    have hinner := List.forall_mem_append.1 (ihc hc nil)
    refine node ?_ (ih hr nil)
    simp only [Node.render, List.forall_mem_append, List.forall_mem_cons]
    exact ⟨⟨⟨⟨hp, slice _ _⟩, hopen, hinner.1⟩, hinner.2⟩, hclose, nil⟩
  | case8 =>
    rename_i ih
    obtain ⟨rest, hr, rfl⟩ := exists_of_map_eq_ok h
    exact node (statement _ _ _ _ hp) (ih hr nil)
  | case9 =>
    rename_i ih
    obtain ⟨rest, hr, rfl⟩ := exists_of_map_eq_ok h
    exact node (statement _ _ _ _ hp) (ih hr nil)

end LinedText

theorem Sheet.forall_mem_render {css : Text} {sheet : Sheet} (h : Sheet.parse css = .ok sheet)
    {P : CodePoint → Prop} (hs : ∀ c ∈ css, P c) (hopen : P '\x7b') (hclose : P '\x7d') (hline : P '\n') :
    ∀ c ∈ sheet.render, P c := by
  obtain ⟨cs, -, hr⟩ := Sheet.parse_eq_ok_iff.1 h
  refine LinedText.forall_mem_render_read hr (fun c hc => ?_) hopen hclose (List.forall_mem_nil _)
  rcases mem_normalizeNewlines hc with hc | rfl
  · exact hs c hc
  · exact hline

end Css

/-- What is left of a sheet that was read from bytes has bytes itself. -/
theorem Generation.isSome_encode?_clean {st : Statuses} {bs : Bytes} {r : Text × Nat}
    (h : clean st (Utf8.decodeLossy bs) = .ok r) : (Utf8.encode? r.1).isSome := by
  obtain ⟨sheet, hp, rfl⟩ := Css.exists_of_map_eq_ok h
  have hs := sheet.forall_mem_render hp (fun _ => Utf8.isSome_char?_of_mem_decodeLossy) rfl rfl rfl
  have hsub : (sheet.prune st).1.render.Sublist sheet.render :=
    (Css.render_pruneAll_sublist st sheet.children).append (List.Sublist.refl sheet.trailing)
  exact Utf8.isSome_encode?_iff.2 fun c hc => hs c (hsub.subset hc)

end StylePrune
