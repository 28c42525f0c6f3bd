import StylePrune.Table

/-!
Tables through their lookups: what they hold is what is found in them.
-/

set_option autoImplicit false

namespace StylePrune.Table

section Lookup

variable {κ α β : Type} [DecidableEq κ] {t : Table κ α}

theorem get?_of_mem {e : κ × α} (h : e ∈ t.entries) : t.get? e.1 = some e.2 := by
  obtain ⟨es, hn⟩ := t
  simp only [get?]
  induction es with
  | nil => cases h
  | cons f es ih =>
    rw [List.map_cons, List.nodup_cons] at hn
    rcases List.mem_cons.1 h with rfl | h
    · simp
    · have hne : f.1 ≠ e.1 := fun heq => hn.1 (heq ▸ List.mem_map_of_mem h)
      simpa [hne] using ih hn.2 h

theorem mem_of_get? {k : κ} {v : α} (h : t.get? k = some v) : (k, v) ∈ t.entries := by
  obtain ⟨e, he, rfl⟩ := Option.map_eq_some_iff.1 h
  have hk : e.1 = k := by simpa using List.find?_some he
  exact hk ▸ List.mem_of_find?_eq_some he

theorem mem_entries_iff {k : κ} {v : α} : (k, v) ∈ t.entries ↔ t.get? k = some v :=
  ⟨fun h => get?_of_mem h, mem_of_get?⟩

theorem get?_map (f : κ → α → β) (t : Table κ α) (k : κ) : (t.map f).get? k = (t.get? k).map (f k) := by
  obtain ⟨es, hn⟩ := t
  simp only [get?, map]
  clear hn
  induction es with
  | nil => rfl
  | cons e es ih =>
    by_cases h : e.1 = k
    · simp [h]
    · simpa [h] using ih

omit [DecidableEq κ] in
theorem map_congr {f g : κ → α → β} (h : ∀ e ∈ t.entries, f e.1 e.2 = g e.1 e.2) : t.map f = t.map g := by
  have hentries : t.entries.map (fun e => (e.1, f e.1 e.2)) = t.entries.map fun e => (e.1, g e.1 e.2) :=
    List.map_congr_left fun e he => by rw [h e he]
  simp only [map, hentries]

/-- Gives the keys that are not there yet their values. -/
def fill (f : κ → α) (ks : List κ) (t : Table κ α) : Table κ α :=
  ks.foldl (fun t k => if (t.get? k).isSome then t else t.insert k (f k)) t

theorem get?_fill (f : κ → α) (ks : List κ) (t : Table κ α) (k : κ) :
    (t.fill f ks).get? k = (t.get? k).or (if k ∈ ks then some (f k) else none) := by
  induction ks generalizing t with
  | nil => simp [fill]
  | cons a ks ih =>
    rw [fill, List.foldl_cons, ← fill, ih]
    by_cases ha : (t.get? a).isSome
    · rw [if_pos ha]
      by_cases h : k = a
      · subst h
        obtain ⟨v, hv⟩ := Option.isSome_iff_exists.1 ha
        simp [hv]
      · simp [h]
    · rw [if_neg ha, get?_insert]
      by_cases h : k = a
      · subst h
        have hnone : t.get? k = none := by simpa using ha
        simp [hnone]
      · simp [h]

end Lookup

section Building

variable {κ α : Type} [DecidableEq κ]

theorem put_of_not_mem {k : κ} {es : List (κ × α)} (h : k ∉ es.map Prod.fst) (v : α) : put k v es = es ++ [(k, v)] := by
  induction es with
  | nil => rfl
  | cons e es ih =>
    obtain ⟨he, hes⟩ := not_or.1 (mt List.mem_cons.2 h)
    rw [put, if_neg (Ne.symm he), ih hes, List.cons_append]

theorem entries_foldl_insert {es : List (κ × α)} {t : Table κ α} (h : ((t.entries ++ es).map Prod.fst).Nodup) :
    (es.foldl (fun t e => t.insert e.1 e.2) t).entries = t.entries ++ es := by
  induction es generalizing t with
  | nil => simp
  | cons e es ih =>
    have hk : e.1 ∉ t.entries.map Prod.fst := by
      intro hm
      rw [List.map_append, List.nodup_append] at h
      exact h.2.2 _ hm _ (by simp) rfl
    have hput : (t.insert e.1 e.2).entries = t.entries ++ [e] := put_of_not_mem hk e.2
    rw [List.foldl_cons, ih (by rw [hput]; simpa using h), hput, List.append_assoc, List.singleton_append]

/-- Entries of which no key stands twice are kept as they are. -/
theorem entries_ofList {es : List (κ × α)} (h : (es.map Prod.fst).Nodup) : (ofList es).entries = es :=
  entries_foldl_insert (t := empty) (by simpa [empty] using h)

theorem mem_of_mem_put {k : κ} {v : α} {es : List (κ × α)} {e : κ × α} (h : e ∈ put k v es) : e = (k, v) ∨ e ∈ es := by
  induction es with
  | nil => simpa [put] using h
  | cons a es ih =>
    unfold put at h
    split at h <;> grind

theorem mem_of_mem_foldl_insert {es : List (κ × α)} {t : Table κ α} {e : κ × α}
    (h : e ∈ (es.foldl (fun t e => t.insert e.1 e.2) t).entries) : e ∈ t.entries ∨ e ∈ es := by
  induction es generalizing t with
  | nil => exact .inl h
  | cons a es ih =>
    rcases ih h with ht | hes
    · rcases mem_of_mem_put ht with rfl | ht
      · exact .inr List.mem_cons_self
      · exact .inl ht
    · exact .inr (List.mem_cons_of_mem a hes)

theorem mem_of_mem_ofList {es : List (κ × α)} {e : κ × α} (h : e ∈ (ofList es).entries) : e ∈ es := by
  simpa [empty] using mem_of_mem_foldl_insert h

theorem ofList_entries (t : Table κ α) : ofList t.entries = t := by
  have h := entries_ofList t.nodup
  cases hl : ofList t.entries with
  | mk es hes =>
    rw [hl] at h
    subst h
    rfl

end Building

end StylePrune.Table
