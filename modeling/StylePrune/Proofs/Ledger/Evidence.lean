import StylePrune.Ledger.Merge
import StylePrune.Proofs.Selector
import StylePrune.Proofs.Table

/-!
What reports do to the status of one selector in one file. A merge acts on every pair of a file and
a selector by itself: on the status it has by then and on whether the selector is listed.
-/

set_option autoImplicit false

namespace StylePrune

/-- The status of a selector after a report that lists it, or does not. -/
def Status.next (selector : Text) (listed : Bool) : Option Status → Option Status
  | none => if listed then some (.presumed selector) else none
  | some .used => some .used
  | some .unused => some (if listed then .presumed selector else .used)

theorem Status.next_used (selector : Text) (listed : Bool) :
    next selector listed (some .used) = some .used := rfl

theorem Status.presumed_eq_unused_iff (selector : Text) :
    presumed selector = .unused ↔ Selector.isEligible selector = true := by
  simp [presumed]

namespace Statuses

theorem get?_enterAll (st : Statuses) (ss : List Text) (s : Text) :
    (st.enterAll ss).get? s = (st.get? s).or (if s ∈ ss then some (.presumed s) else none) :=
  (Table.get?_fill Status.presumed ss st s).trans (by congr)

theorem get?_witness (unused : List Text) (st : Statuses) (s : Text) :
    (st.witness unused).get? s = Status.next s (s ∈ unused) (st.get? s) := by
  rw [witness, Table.get?_map, get?_enterAll]
  by_cases hs : s ∈ unused
  · cases hg : st.get? s with
    | none =>
      have hp : ∀ v, v = Status.presumed s → (if v = .unused then v else .used) = v := by
        intro v _
        cases v <;> rfl
      simp [hs, Status.next, hp]
    | some v => cases v <;> simp [hs, Status.next]
  · cases hg : st.get? s with
    | none => simp [hs, Status.next]
    | some v => cases v <;> simp [hs, Status.next]

/-- What reports on a file make of its statuses. -/
def after (st : Statuses) (us : List (List Css.Use)) : Statuses :=
  us.foldl (fun st u => st.witness (Ledger.reported u)) st

end Statuses

theorem Statuses.after_append (st : Statuses) (us vs : List (List Css.Use)) :
    st.after (us ++ vs) = (st.after us).after vs := by simp [after]

/-- The status of a selector after reports on its file. -/
def Status.through (selector : Text) (us : List (List Css.Use)) (o : Option Status) : Option Status :=
  us.foldl (fun o u => next selector (selector ∈ Ledger.reported u) o) o

theorem Statuses.get?_after (st : Statuses) (us : List (List Css.Use)) (s : Text) :
    (st.after us).get? s = Status.through s us (st.get? s) := by
  induction us generalizing st with
  | nil => rfl
  | cons u us ih =>
    have ih := ih (st.witness (Ledger.reported u))
    rw [get?_witness] at ih
    exact ih

namespace Status

theorem through_append (s : Text) (us vs : List (List Css.Use)) (o : Option Status) :
    through s (us ++ vs) o = through s vs (through s us o) := by simp [through]

theorem through_cons (s : Text) (u : List Css.Use) (us : List (List Css.Use)) (o : Option Status) :
    through s (u :: us) o = through s us (next s (s ∈ Ledger.reported u) o) := rfl

@[simp] theorem through_used (s : Text) (us : List (List Css.Use)) :
    through s us (some .used) = some .used := by
  induction us with
  | nil => rfl
  | cons u us ih => rw [through_cons, next_used, ih]

theorem isSome_through {s : Text} (us : List (List Css.Use)) {o : Option Status} (h : o.isSome) :
    (through s us o).isSome := by
  induction us generalizing o with
  | nil => exact h
  | cons u us ih =>
    obtain ⟨v, rfl⟩ := Option.isSome_iff_exists.1 h
    exact ih (by cases v <;> rfl)

/-- One report that leaves a known selector out is enough. -/
theorem through_of_unlisted {s : Text} {us : List (List Css.Use)} {o : Option Status} (ho : o.isSome)
    (h : ∃ u ∈ us, s ∉ Ledger.reported u) : through s us o = some .used := by
  obtain ⟨u, hu, hs⟩ := h
  obtain ⟨a, b, rfl⟩ := List.append_of_mem hu
  obtain ⟨v, hv⟩ := Option.isSome_iff_exists.1 (isSome_through a ho)
  rw [through_append, through_cons, hv]
  cases v <;> simp [hs, next]

theorem through_of_listed {s : Text} (he : Selector.isEligible s = true) {us : List (List Css.Use)}
    (h : ∀ u ∈ us, s ∈ Ledger.reported u) : through s us (some .unused) = some .unused := by
  induction us with
  | nil => rfl
  | cons u us ih =>
    have hu : s ∈ Ledger.reported u := h u List.mem_cons_self
    have hn : next s (s ∈ Ledger.reported u) (some .unused) = some .unused := by
      simp [next, hu, (presumed_eq_unused_iff s).2 he]
    rw [through_cons, hn]
    exact ih fun v hv => h v (List.mem_cons_of_mem u hv)

theorem isSome_through_of_listed {s : Text} {us : List (List Css.Use)} (o : Option Status)
    (h : ∃ u ∈ us, s ∈ Ledger.reported u) : (through s us o).isSome := by
  obtain ⟨u, hu, hs⟩ := h
  obtain ⟨a, b, rfl⟩ := List.append_of_mem hu
  rw [through_append, through_cons]
  refine isSome_through b ?_
  cases through s a o with
  | none => simp [next, hs]
  | some v => cases v <;> rfl

/-- A selector that starts unknown is cleared only where a report that lists it comes before one that
does not. -/
theorem through_none_ne_used {s : Text} (he : Selector.isEligible s = true) {us : List (List Css.Use)}
    (h : ∀ a u b, us = a ++ u :: b → s ∉ Ledger.reported u → ∀ x ∈ a, s ∉ Ledger.reported x) :
    through s us none ≠ some .used := by
  induction us with
  | nil => simp [through]
  | cons u us ih =>
    rw [through_cons]
    by_cases hs : s ∈ Ledger.reported u
    · have hl : ∀ v ∈ us, s ∈ Ledger.reported v := by
        intro v hv
        obtain ⟨a, b, rfl⟩ := List.append_of_mem hv
        by_cases hv' : s ∈ Ledger.reported v
        · exact hv'
        · exact absurd hs (h (u :: a) v b rfl hv' u List.mem_cons_self)
      have hn : next s (s ∈ Ledger.reported u) none = some .unused := by
        simp [next, hs, (presumed_eq_unused_iff s).2 he]
      rw [hn, through_of_listed he hl]
      simp
    · have hn : next s (s ∈ Ledger.reported u) none = none := by simp [next, hs]
      rw [hn]
      refine ih fun a v b hb hv x hx => ?_
      exact h (u :: a) v b (by rw [hb, List.cons_append]) hv x (List.mem_cons_of_mem u hx)

/-- A selector that is entered as presumed is unused when it is eligible and every report lists it. -/
theorem through_presumed_eq_unused_iff (s : Text) (us : List (List Css.Use)) :
    through s us (some (presumed s)) = some .unused ↔
      Selector.isEligible s = true ∧ ∀ u ∈ us, s ∈ Ledger.reported u := by
  constructor
  · intro h
    have he : Selector.isEligible s = true := by
      by_cases he : Selector.isEligible s = true
      · exact he
      · simp [presumed, he] at h
    refine ⟨he, fun u hu => ?_⟩
    by_cases hs : s ∈ Ledger.reported u
    · exact hs
    · rw [through_of_unlisted rfl ⟨u, hu, hs⟩] at h
      cases h
  · rintro ⟨he, hl⟩
    rw [(presumed_eq_unused_iff s).2 he]
    exact through_of_listed he hl

/-- An ineligible selector without the status unused never gets it. -/
theorem through_ne_unused {s : Text} (he : Selector.isEligible s = false) (us : List (List Css.Use))
    {o : Option Status} (ho : o ≠ some .unused) : through s us o ≠ some .unused := by
  induction us generalizing o with
  | nil => exact ho
  | cons u us ih =>
    refine ih ?_
    cases o with
    | none => by_cases hs : s ∈ Ledger.reported u <;> simp [next, hs, presumed, he]
    | some v =>
      cases v with
      | used => simp [next]
      | unused => exact absurd rfl ho

end Status

namespace Ledger

/-- The status of a selector in a file, if the ledger has one. -/
def status? (l : Ledger) (file selector : Text) : Option Status := (l.get? file).bind (·.get? selector)

/-- The entries of a report whose references have the key `file`. -/
def reportsOn (file : Text) (es : List (Text × List Css.Use)) : List (List Css.Use) :=
  es.filterMap fun e => match SourceKey.ofReference e.1 with
    | .ok f => if f = file then some e.2 else none
    | .error _ => none

theorem reportsOn_append (file : Text) (es fs : List (Text × List Css.Use)) :
    reportsOn file (es ++ fs) = reportsOn file es ++ reportsOn file fs := List.filterMap_append

theorem reportsOn_cons_eq {file : Text} {e : Text × List Css.Use} (h : SourceKey.ofReference e.1 = .ok file)
    (es : List (Text × List Css.Use)) : reportsOn file (e :: es) = e.2 :: reportsOn file es := by
  simp [reportsOn, h]

theorem reportsOn_cons_ne {file g : Text} {e : Text × List Css.Use} (h : SourceKey.ofReference e.1 = .ok g)
    (hne : g ≠ file) (es : List (Text × List Css.Use)) : reportsOn file (e :: es) = reportsOn file es := by
  simp [reportsOn, h, hne]

theorem mem_reportsOn {file : Text} {es : List (Text × List Css.Use)} {e : Text × List Css.Use} (he : e ∈ es)
    (hf : SourceKey.ofReference e.1 = .ok file) : e.2 ∈ reportsOn file es :=
  List.mem_filterMap.2 ⟨e, he, by simp [hf]⟩

theorem exists_of_mem_reportsOn {file : Text} {es : List (Text × List Css.Use)} {u : List Css.Use}
    (h : u ∈ reportsOn file es) : ∃ reference, (reference, u) ∈ es ∧ SourceKey.ofReference reference = .ok file := by
  obtain ⟨e, he, hu⟩ := List.mem_filterMap.1 h
  cases hf : SourceKey.ofReference e.1 with
  | error x => simp [hf] at hu
  | ok f =>
    by_cases hff : f = file
    · obtain rfl : e.2 = u := by simpa [hf, hff] using hu
      exact ⟨e.1, he, hff ▸ hf⟩
    · simp [hf, hff] at hu

theorem forall_mem_reportsOn {file : Text} {es : List (Text × List Css.Use)} {p : List Css.Use → Prop} :
    (∀ u ∈ reportsOn file es, p u) ↔ ∀ e ∈ es, SourceKey.ofReference e.1 = .ok file → p e.2 := by
  constructor
  · intro h e he hf
    exact h _ (mem_reportsOn he hf)
  · intro h u hu
    obtain ⟨reference, he, hf⟩ := exists_of_mem_reportsOn hu
    exact h _ he hf

theorem mem_reported {uses : List Css.Use} {s : Text} :
    s ∈ reported uses ↔ s ≠ [] ∧ ∃ u ∈ uses, Selector.normalize u.1 = s := by
  simp only [reported, List.mem_eraseDups, List.mem_filter, List.mem_map, decide_eq_true_eq]
  exact and_comm

end Ledger
end StylePrune
