import StylePrune.Proofs.Ledger.Deletion
import StylePrune.Proofs.Ledger.History

/-!
Reports in another order, or more than once. Whether they can be merged does not hang on their order. What
comes of them does, for a selector that the ledger does not know when the reports come and on which they
disagree.
-/

set_option autoImplicit false

namespace StylePrune

theorem pairwise_of_forall_mem {α : Type} {R : α → α → Prop} {l : List α} (h : ∀ a ∈ l, ∀ b ∈ l, R a b) :
    l.Pairwise R :=
  List.Pairwise.imp_of_mem (fun ha hb _ => h _ ha _ hb) (List.pairwise_of_forall fun _ _ => trivial)

/-- Once an entry lists the selector all later ones do. -/
def Status.Steady (selector : Text) (us : List (List Css.Use)) : Prop :=
  us.Pairwise fun u v => selector ∈ Ledger.reported u → selector ∈ Ledger.reported v

namespace Status

variable {s : Text} {us vs : List (List Css.Use)}

theorem steady_of_listed (h : ∀ u ∈ us, s ∈ Ledger.reported u) : Steady s us :=
  pairwise_of_forall_mem fun _ _ v hv _ => h v hv

/-- An unknown selector that is eligible is cleared where an entry leaves it out after one that listed it. -/
theorem through_none_eq_used_iff (he : Selector.isEligible s = true) :
    through s us none = some .used ↔ ¬ Steady s us := by
  constructor
  · intro h hs
    refine through_none_ne_used he (fun a u b hab hu x hx hl => ?_) h
    rw [hab, Steady, List.pairwise_append] at hs
    exact hu (hs.2.2 x hx u List.mem_cons_self hl)
  · intro h
    induction us with
    | nil => exact absurd List.Pairwise.nil h
    | cons u us ih =>
      rw [through_cons]
      by_cases hu : s ∈ Ledger.reported u
      · rw [decide_eq_true hu]
        refine through_of_unlisted rfl ?_
        by_contra hall
        push Not at hall
        exact h (steady_of_listed (List.forall_mem_cons.2 ⟨hu, hall⟩))
      · rw [decide_eq_false hu]
        exact ih fun hs => h (List.pairwise_cons.2 ⟨fun v _ hl => absurd hl hu, hs⟩)

theorem through_none_of_unlisted (h : ∀ u ∈ us, s ∉ Ledger.reported u) : through s us none = none := by
  induction us with
  | nil => rfl
  | cons u us ih =>
    rw [through_cons, decide_eq_false (h u List.mem_cons_self)]
    exact ih fun v hv => h v (List.mem_cons_of_mem u hv)

/-- An unknown selector that some entry lists is unused when no entry leaves it out afterwards. -/
theorem through_none_of_steady (he : Selector.isEligible s = true) (h : Steady s us)
    (hl : ∃ u ∈ us, s ∈ Ledger.reported u) : through s us none = some .unused := by
  obtain ⟨v, hv⟩ := Option.isSome_iff_exists.1 (isSome_through_of_listed none hl)
  cases v with
  | used => exact absurd h ((through_none_eq_used_iff he).1 hv)
  | unused => exact hv

/-- An ineligible selector is cleared by the first entry that lists it. -/
theorem through_of_ineligible (he : Selector.isEligible s = false) {o : Option Status}
    (hl : ∃ u ∈ us, s ∈ Ledger.reported u) : through s us o = some .used := by
  obtain ⟨u, hu, hs⟩ := hl
  obtain ⟨a, b, rfl⟩ := List.append_of_mem hu
  have hn (o : Option Status) : next s true o = some .used := by
    cases o with
    | none => simp [next, presumed, he]
    | some v => cases v <;> simp [next, presumed, he]
  rw [through_append, through_cons, decide_eq_true hs, hn, through_used]

/-- What becomes of a known selector depends on which entries there are, not on their order. -/
theorem through_some_congr (h : ∀ u, u ∈ us ↔ u ∈ vs) (o : Status) :
    through s us (some o) = through s vs (some o) := by
  by_cases hu : ∃ u ∈ us, s ∉ Ledger.reported u
  · rw [through_of_unlisted rfl hu, through_of_unlisted rfl (by simpa only [h] using hu)]
  · push Not at hu
    have hv : ∀ v ∈ vs, s ∈ Ledger.reported v := fun v hv => hu v ((h v).2 hv)
    cases o with
    | used => rw [through_used, through_used]
    | unused =>
      by_cases he : Selector.isEligible s = true
      · rw [through_of_listed he hu, through_of_listed he hv]
      · cases us with
        | nil =>
          have hvs : vs = [] := List.eq_nil_iff_forall_not_mem.2 fun v hv => by simpa using (h v).2 hv
          rw [hvs]
        | cons u us =>
          have hl : ∃ w ∈ u :: us, s ∈ Ledger.reported w := ⟨u, List.mem_cons_self, hu u List.mem_cons_self⟩
          have he : Selector.isEligible s = false := by simpa using he
          rw [through_of_ineligible he hl, through_of_ineligible he (by simpa only [h] using hl)]

end Status

namespace Ledger

variable {s : Site} {locked : Text → Bool} {d : Disk}

/-- The same map from files and their selectors to statuses. -/
def Same (l l' : Ledger) : Prop :=
  ∀ file, (l.get? file).isSome = (l'.get? file).isSome ∧
    ∀ selector, l.status? file selector = l'.status? file selector

/-- The ledger knows a selector when the next report on the file comes: from the file's entry or, of a file
that is new, from its stylesheet. -/
def Knows (s : Site) (locked : Text → Bool) (d : Disk) (l : Ledger) (file selector : Text) : Prop :=
  (l.status? file selector).isSome ∨ l.get? file = none ∧
    ∃ css size sheet, Site.read s locked d file = .ok (css, size) ∧ Css.Sheet.parse css = .ok sheet ∧
      selector ∈ sheet.uses.map Prod.fst

theorem firstStatuses_eq_ok {file : Text} {k : Statuses × List Text} (h : firstStatuses s locked d file = .ok k) :
    k.1 = Table.empty ∧ (∀ css size sheet, Site.read s locked d file = .ok (css, size) →
        Css.Sheet.parse css ≠ .ok sheet) ∨
      ∃ css size sheet, Site.read s locked d file = .ok (css, size) ∧ Css.Sheet.parse css = .ok sheet ∧
        k.1 = Statuses.enterAll Table.empty (sheet.uses.map Prod.fst) := by
  by_cases hr : ∃ css size sheet, Site.read s locked d file = .ok (css, size) ∧ Css.Sheet.parse css = .ok sheet
  · obtain ⟨css, size, sheet, hr, hp⟩ := hr
    rw [firstStatuses_of_read hr hp] at h
    obtain rfl := Except.ok.inj h
    exact .inr ⟨css, size, sheet, hr, hp, rfl⟩
  · push Not at hr
    refine .inl ⟨?_, hr⟩
    unfold firstStatuses at h
    split at h
    · obtain rfl := Except.ok.inj h
      rfl
    · split at h
      · cases h
      · obtain rfl := Except.ok.inj h
        rfl
      · rename_i r hread
        split at h
        · cases h
        · obtain rfl := Except.ok.inj h
          rfl
        · rename_i sheet hp
          exact absurd hp (hr _ _ _ hread)

/-- The statuses with which a file is opened have a selector if the ledger knows it. -/
theorem isSome_get?_opening {l : Ledger} {file selector : Text} {k : Statuses × List Text}
    (h : opening s locked d l file = .ok k) : (k.1.get? selector).isSome ↔ Knows s locked d l file selector := by
  cases hl : l.get? file with
  | some st =>
    rw [opening_of_get? hl] at h
    obtain rfl := Except.ok.inj h
    simp [Knows, status?, hl]
  | none =>
    rw [opening_of_new hl] at h
    have hn : (l.status? file selector).isSome = false := by simp [status?, hl]
    rcases firstStatuses_eq_ok h with ⟨hk, hr⟩ | ⟨css, size, sheet, hr, hp, hk⟩
    · simp only [Knows, hk, Table.get?_empty, hn, hl]
      simp only [Option.isSome_none, Bool.false_eq_true, false_or, true_and, false_iff]
      rintro ⟨css, size, sheet, hread, hp, -⟩
      exact hr _ _ _ hread hp
    · rw [hk, get?_enterAll_empty]
      simp only [Knows, hn, hl, hr, Bool.false_eq_true, false_or, true_and]
      constructor
      · intro hs
        exact ⟨css, size, sheet, rfl, hp, by simpa using hs⟩
      · rintro ⟨css', size', sheet', he, hp', hs⟩
        obtain ⟨rfl, rfl⟩ := Prod.mk.inj (Except.ok.inj he)
        obtain rfl := Except.ok.inj (hp.symm.trans hp')
        rw [if_pos hs]
        rfl

theorem reportsOn_flatMap (file : Text) (rs : List Report) :
    reportsOn file (rs.flatMap (·.entries)) = rs.flatMap fun r => reportsOn file r.entries := by
  induction rs with
  | nil => rfl
  | cons r rs ih => rw [List.flatMap_cons, reportsOn_append, ih, List.flatMap_cons]

/-- A file can be opened after a merge if it could before. -/
theorem Merge.exists_opening_run {m m' : Merge} {es : List (Text × List Css.Use)} {file : Text}
    (h : m.run s locked d es = (m', none)) :
    (∃ k, opening s locked d m'.ledger file = .ok k) ↔ ∃ k, opening s locked d m.ledger file = .ok k := by
  by_cases hf : reportsOn file es = []
  · rw [opening, Merge.get?_run_of_nil h hf, opening]
  · obtain ⟨k, hk, hg⟩ := Merge.get?_run h hf
    exact iff_of_true ⟨_, opening_of_get? hg⟩ ⟨k, hk⟩

/-- Every reference of some entries has a key, and the file of the key can be opened. -/
def Opens (s : Site) (locked : Text → Bool) (d : Disk) (l : Ledger) (es : List (Text × List Css.Use)) : Prop :=
  ∀ e ∈ es, ∃ file, SourceKey.ofReference e.1 = .ok file ∧ ∃ k, opening s locked d l file = .ok k

theorem Merge.exists_run_iff {m : Merge} {es : List (Text × List Css.Use)} :
    (∃ m', m.run s locked d es = (m', none)) ↔ Opens s locked d m.ledger es := by
  induction es generalizing m with
  | nil => exact iff_of_true ⟨m, rfl⟩ (List.forall_mem_nil _)
  | cons e es ih =>
    have later {m₁ : Merge} (h : m.step s locked d e.1 e.2 = .ok m₁) :
        Opens s locked d m₁.ledger es ↔ Opens s locked d m.ledger es := by
      have hr : m.run s locked d [e] = (m₁, none) := by simp [Merge.run, h]
      simp only [Opens, Merge.exists_opening_run hr]
    constructor
    · rintro ⟨m', h⟩
      obtain ⟨m₁, hs, hr⟩ := Merge.run_cons_eq_none h
      obtain ⟨file, k, hf, hk, -⟩ := Merge.step_eq_ok hs
      exact List.forall_mem_cons.2 ⟨⟨file, hf, k, hk⟩, (later hs).1 (ih.1 ⟨m', hr⟩)⟩
    · intro h
      obtain ⟨⟨file, hf, k, hk⟩, hes⟩ := List.forall_mem_cons.1 h
      obtain ⟨m₁, hs⟩ : ∃ m₁, m.step s locked d e.1 e.2 = .ok m₁ := by
        simp only [opening] at hk
        simp [Merge.step, hf, hk]
      obtain ⟨m', hr⟩ := ih.2 ((later hs).2 hes)
      exact ⟨m', by simp [Merge.run, hs, hr]⟩

/-- Reports can be merged in every order in which they can be merged at all. -/
theorem exists_mergeAll_iff {l : Ledger} {rs : List Report} :
    (∃ l', mergeAll s locked d l rs = .ok l') ↔ ∀ r ∈ rs, Opens s locked d l r.entries := by
  induction rs generalizing l with
  | nil => exact iff_of_true ⟨l, rfl⟩ (List.forall_mem_nil _)
  | cons r rs ih =>
    have later {m : Merge} (h : merge s locked d l r = (m, none)) :
        (∀ r ∈ rs, Opens s locked d m.ledger r.entries) ↔ ∀ r ∈ rs, Opens s locked d l r.entries := by
      have hm (file : Text) : (∃ k, opening s locked d m.ledger file = .ok k) ↔
          ∃ k, opening s locked d l file = .ok k := Merge.exists_opening_run h
      simp only [Opens, hm]
    rw [List.forall_mem_cons]
    constructor
    · rintro ⟨l', h⟩
      obtain ⟨m, hm, hr⟩ := mergeAll_cons_eq_ok h
      exact ⟨Merge.exists_run_iff.1 ⟨m, hm⟩, (later hm).1 (ih.1 ⟨l', hr⟩)⟩
    · rintro ⟨hr, hrs⟩
      obtain ⟨m, hm⟩ : ∃ m, merge s locked d l r = (m, none) := Merge.exists_run_iff.2 hr
      obtain ⟨l', hl⟩ := ih.2 ((later hm).2 hrs)
      exact ⟨l', by simpa only [mergeAll, hm] using hl⟩

theorem exists_mergeAll_congr {l : Ledger} {rs rs' : List Report} (h : ∀ r, r ∈ rs' ↔ r ∈ rs) :
    (∃ l', mergeAll s locked d l rs' = .ok l') ↔ ∃ l', mergeAll s locked d l rs = .ok l' := by
  simp only [exists_mergeAll_iff, h]

theorem mem_reportsOn_congr {rs rs' : List Report} (h : ∀ r, r ∈ rs' ↔ r ∈ rs) (file : Text) (u : List Css.Use) :
    u ∈ reportsOn file (rs'.flatMap (·.entries)) ↔ u ∈ reportsOn file (rs.flatMap (·.entries)) := by
  simp only [reportsOn_flatMap, List.mem_flatMap, h]

theorem status?_mergeAll {l l' : Ledger} {rs : List Report} {file : Text} {k : Statuses × List Text}
    (h : mergeAll s locked d l rs = .ok l') (hf : reportsOn file (rs.flatMap (·.entries)) ≠ [])
    (hk : opening s locked d l file = .ok k) (selector : Text) :
    l'.status? file selector =
      Status.through selector (reportsOn file (rs.flatMap (·.entries))) (k.1.get? selector) := by
  obtain ⟨k', hk', hg⟩ := get?_mergeAll h hf
  obtain rfl := Except.ok.inj (hk.symm.trans hk')
  rw [status?, hg, Option.bind_some, Statuses.get?_after]

/-- No entry that a report has for the file lists the selector. -/
def Omits (file selector : Text) (r : Report) : Prop :=
  ∀ u ∈ reportsOn file r.entries, selector ∉ reported u

/-- Every entry that a report has for the file lists the selector. -/
def Lists (file selector : Text) (r : Report) : Prop :=
  ∀ u ∈ reportsOn file r.entries, selector ∈ reported u

/-- Reports say the same of a selector in every order: none lists it, or all that name the file do, or, in
whatever order they come, it is left out after it was listed. -/
def Decided (rs : List Report) (file selector : Text) : Prop :=
  (∀ r ∈ rs, Omits file selector r) ∨ (∀ r ∈ rs, Lists file selector r) ∨
    (∃ r ∈ rs, ¬ Status.Steady selector (reportsOn file r.entries)) ∨
    ∃ r ∈ rs, ∃ r' ∈ rs, r ≠ r' ∧ (¬ Omits file selector r ∧ ¬ Lists file selector r) ∧
      ¬ Omits file selector r' ∧ ¬ Lists file selector r'

variable {rs rs' : List Report} {file selector : Text}

theorem steady_flatMap_iff : Status.Steady selector (rs.flatMap fun r => reportsOn file r.entries) ↔
    (∀ r ∈ rs, Status.Steady selector (reportsOn file r.entries)) ∧
      rs.Pairwise fun r r' => Omits file selector r ∨ Lists file selector r' := by
  rw [Status.Steady, List.pairwise_flatMap]
  refine and_congr_right fun _ => iff_of_eq (congrArg (List.Pairwise · rs) ?_)
  funext r r'
  simp only [eq_iff_iff]
  constructor
  · intro h
    by_cases ho : Omits file selector r
    · exact .inl ho
    · simp only [Omits, not_forall, not_not] at ho
      obtain ⟨u, hu, hl⟩ := ho
      exact .inr fun v hv => h u hu v hv hl
  · rintro (ho | hl) u hu v hv hs
    · exact absurd hs (ho u hu)
    · exact hl v hv

/-- Two reports with entries of both kinds leave the selector out after it was listed, whichever of them
comes first. -/
theorem not_steady_of_both {r r' : Report} (hr : r ∈ rs) (hr' : r' ∈ rs) (hne : r ≠ r')
    (h : ¬ Omits file selector r ∧ ¬ Lists file selector r)
    (h' : ¬ Omits file selector r' ∧ ¬ Lists file selector r') :
    ¬ Status.Steady selector (rs.flatMap fun r => reportsOn file r.entries) := by
  intro hs
  obtain ⟨a, b, rfl⟩ := List.append_of_mem hr
  have hp := List.pairwise_append.1 (steady_flatMap_iff.1 hs).2
  rcases List.mem_append.1 hr' with ha | hb
  · exact (hp.2.2 r' ha r List.mem_cons_self).elim h'.1 h.2
  · rcases List.mem_cons.1 hb with rfl | hb
    · exact hne rfl
    · exact ((List.pairwise_cons.1 hp.2.1).1 r' hb).elim h.1 h'.2

theorem Decided.through_eq (hd : Decided rs file selector) (he : Selector.isEligible selector = true)
    (h : ∀ r, r ∈ rs' ↔ r ∈ rs) :
    Status.through selector (rs'.flatMap fun r => reportsOn file r.entries) none =
      Status.through selector (rs.flatMap fun r => reportsOn file r.entries) none := by
  have hu (u : List Css.Use) : u ∈ rs'.flatMap (fun r => reportsOn file r.entries) ↔
      u ∈ rs.flatMap fun r => reportsOn file r.entries := by
    simp only [List.mem_flatMap, h]
  have cleared {rs : List Report} (hs : ¬ Status.Steady selector (rs.flatMap fun r => reportsOn file r.entries)) :
      Status.through selector (rs.flatMap fun r => reportsOn file r.entries) none = some .used :=
    (Status.through_none_eq_used_iff he).2 hs
  rcases hd with hn | ha | ⟨r, hr, hs⟩ | ⟨r, hr, r', hr', hne, hw, hw'⟩
  · have hn : ∀ u ∈ rs.flatMap fun r => reportsOn file r.entries, selector ∉ reported u :=
      List.forall_mem_flatMap.2 hn
    rw [Status.through_none_of_unlisted hn, Status.through_none_of_unlisted fun u hm => hn u ((hu u).1 hm)]
  · have ha : ∀ u ∈ rs.flatMap fun r => reportsOn file r.entries, selector ∈ reported u :=
      List.forall_mem_flatMap.2 ha
    have ha' : ∀ u ∈ rs'.flatMap fun r => reportsOn file r.entries, selector ∈ reported u :=
      fun u hm => ha u ((hu u).1 hm)
    by_cases hex : ∃ u, u ∈ rs.flatMap fun r => reportsOn file r.entries
    · obtain ⟨u, hm⟩ := hex
      rw [Status.through_none_of_steady he (Status.steady_of_listed ha) ⟨u, hm, ha u hm⟩,
        Status.through_none_of_steady he (Status.steady_of_listed ha') ⟨u, (hu u).2 hm, ha u hm⟩]
    · rw [List.eq_nil_iff_forall_not_mem.2 fun u hm => hex ⟨u, hm⟩,
        List.eq_nil_iff_forall_not_mem.2 fun u hm => hex ⟨u, (hu u).1 hm⟩]
  · rw [cleared fun hall => hs ((steady_flatMap_iff.1 hall).1 r hr),
      cleared fun hall => hs ((steady_flatMap_iff.1 hall).1 r ((h r).2 hr))]
  · rw [cleared (not_steady_of_both hr hr' hne hw hw'),
      cleared (not_steady_of_both ((h r).2 hr) ((h r').2 hr') hne hw hw')]

/-- Undecided reports leave the selector out after it was listed when all of them come twice. -/
theorem not_steady_twice (hd : ¬ Decided rs file selector) :
    ¬ Status.Steady selector ((rs ++ rs).flatMap fun r => reportsOn file r.entries) := by
  simp only [Decided, not_or, not_forall] at hd
  obtain ⟨⟨r, hr, ho⟩, ⟨r', hr', hl⟩, -⟩ := hd
  intro hs
  exact ((List.pairwise_append.1 (steady_flatMap_iff.1 hs).2).2.2 r hr r' hr').elim ho hl

/-- Undecided reports can come in an order in which the entries that list the selector come last. -/
theorem exists_steady (hd : ¬ Decided rs file selector) : ∃ rs' : List Report, (∀ r, r ∈ rs' ↔ r ∈ rs) ∧
    Status.Steady selector (rs'.flatMap fun r => reportsOn file r.entries) := by
  classical
  simp only [Decided, not_or, not_exists, not_and, not_not] at hd
  obtain ⟨-, -, hs, hboth⟩ := hd
  -- at most one report has entries of both kinds
  obtain ⟨ws, hws, hone⟩ : ∃ ws : List Report,
      (∀ r, r ∈ ws ↔ r ∈ rs ∧ ¬ Omits file selector r ∧ ¬ Lists file selector r) ∧ ws.length ≤ 1 := by
    by_cases hex : ∃ r ∈ rs, ¬ Omits file selector r ∧ ¬ Lists file selector r
    · obtain ⟨r, hr, hw⟩ := hex
      refine ⟨[r], fun r' => ⟨fun h => ?_, fun ⟨hr', hw'⟩ => ?_⟩, Nat.le_refl 1⟩
      · rw [List.mem_singleton.1 h]
        exact ⟨hr, hw⟩
      · by_contra hne
        exact hw'.2 (hboth r hr r' hr' (fun h => hne (by simp [h])) hw hw'.1)
    · exact ⟨[], fun r => iff_of_false (List.not_mem_nil) fun h => hex ⟨r, h⟩, Nat.zero_le 1⟩
  have hquiet : ∀ r ∈ rs.filter (Omits file selector ·), Omits file selector r :=
    fun r hr => by simpa using (List.mem_filter.1 hr).2
  have hfull : ∀ r ∈ rs.filter (Lists file selector ·), Lists file selector r :=
    fun r hr => by simpa using (List.mem_filter.1 hr).2
  have hmem (r : Report) :
      r ∈ rs.filter (Omits file selector ·) ++ (ws ++ rs.filter (Lists file selector ·)) ↔ r ∈ rs := by
    simp only [List.mem_append, List.mem_filter, hws, decide_eq_true_eq]
    tauto
  refine ⟨_, hmem, steady_flatMap_iff.2 ⟨fun r hr => hs r ((hmem r).1 hr), ?_⟩⟩
  refine List.pairwise_append.2 ⟨pairwise_of_forall_mem fun r hr r' _ => .inl (hquiet r hr),
    List.pairwise_append.2 ⟨?_, pairwise_of_forall_mem fun r _ r' hr' => .inr (hfull r' hr'),
      fun r _ r' hr' => .inr (hfull r' hr')⟩,
    fun r hr r' _ => .inl (hquiet r hr)⟩
  match ws, hone with
  | [], _ => exact List.Pairwise.nil
  | [r], _ => exact List.pairwise_singleton _ r

theorem Same.trans {l₁ l₂ l₃ : Ledger} (h : Same l₁ l₂) (h' : Same l₂ l₃) : Same l₁ l₃ :=
  fun file => ⟨(h file).1.trans (h' file).1, fun selector => ((h file).2 selector).trans ((h' file).2 selector)⟩

theorem Same.symm {l₁ l₂ : Ledger} (h : Same l₁ l₂) : Same l₂ l₁ :=
  fun file => ⟨(h file).1.symm, fun selector => ((h file).2 selector).symm⟩

/-- A selector that the ledger knows, one that can never be deleted and one on which the reports are decided
ends up the same in every order. -/
theorem status?_mergeAll_congr {l l₁ l₂ : Ledger} (h₁ : mergeAll s locked d l rs = .ok l₁)
    (h₂ : mergeAll s locked d l rs' = .ok l₂) (h : ∀ r, r ∈ rs' ↔ r ∈ rs)
    (hd : Selector.isEligible selector = true → Knows s locked d l file selector ∨ Decided rs file selector) :
    l₂.status? file selector = l₁.status? file selector := by
  have hu (u : List Css.Use) : u ∈ reportsOn file (rs'.flatMap (·.entries)) ↔
      u ∈ reportsOn file (rs.flatMap (·.entries)) := mem_reportsOn_congr h file u
  by_cases hf : reportsOn file (rs.flatMap (·.entries)) = []
  · have hf' : reportsOn file (rs'.flatMap (·.entries)) = [] :=
      List.eq_nil_iff_forall_not_mem.2 fun u hm => by simpa [hf] using (hu u).1 hm
    rw [status?, status?, get?_mergeAll_of_nil h₁ hf, get?_mergeAll_of_nil h₂ hf']
  · have hf' : reportsOn file (rs'.flatMap (·.entries)) ≠ [] := by
      obtain ⟨u, hm⟩ := List.exists_mem_of_ne_nil _ hf
      exact List.ne_nil_of_mem ((hu u).2 hm)
    obtain ⟨k, hk, -⟩ := get?_mergeAll h₁ hf
    rw [status?_mergeAll h₁ hf hk, status?_mergeAll h₂ hf' hk]
    cases ho : k.1.get? selector with
    | some o => exact Status.through_some_congr hu o
    | none =>
      have hn : ¬ Knows s locked d l file selector := by
        rw [← isSome_get?_opening hk, ho]
        simp
      by_cases he : Selector.isEligible selector = true
      · rw [reportsOn_flatMap, reportsOn_flatMap]
        exact ((hd he).resolve_left hn).through_eq he h
      · have he : Selector.isEligible selector = false := by simpa using he
        by_cases hl : ∃ u ∈ reportsOn file (rs.flatMap (·.entries)), selector ∈ reported u
        · rw [Status.through_of_ineligible he hl, Status.through_of_ineligible he (by simpa only [hu] using hl)]
        · push Not at hl
          rw [Status.through_none_of_unlisted hl,
            Status.through_none_of_unlisted fun u hm => hl u ((hu u).1 hm)]

/-- A selector that the ledger does not know and some entry lists has the status that the reports give it. -/
theorem status?_mergeAll_of_unknown {l l₁ : Ledger} (h : mergeAll s locked d l rs = .ok l₁)
    (hk : ¬ Knows s locked d l file selector) (hl : ∃ r ∈ rs, ¬ Omits file selector r) :
    l₁.status? file selector = Status.through selector (rs.flatMap fun r => reportsOn file r.entries) none := by
  have hf : reportsOn file (rs.flatMap (·.entries)) ≠ [] := by
    simp only [Omits, not_forall] at hl
    obtain ⟨r, hr, u, hu, -⟩ := hl
    rw [reportsOn_flatMap]
    exact List.ne_nil_of_mem (List.mem_flatMap.2 ⟨r, hr, hu⟩)
  obtain ⟨k, ho, -⟩ := get?_mergeAll h hf
  have hn : k.1.get? selector = none := by
    rw [← isSome_get?_opening ho] at hk
    simpa using hk
  rw [status?_mergeAll h hf ho, hn, reportsOn_flatMap]

theorem isSome_get?_mergeAll {l l₁ : Ledger} (h : mergeAll s locked d l rs = .ok l₁) :
    (l₁.get? file).isSome ↔ (l.get? file).isSome ∨ reportsOn file (rs.flatMap (·.entries)) ≠ [] := by
  by_cases hf : reportsOn file (rs.flatMap (·.entries)) = []
  · rw [get?_mergeAll_of_nil h hf]
    simp [hf]
  · obtain ⟨k, -, hg⟩ := get?_mergeAll h hf
    simp [hg, hf]

/-- Reports merge to the same ledger in every order and however often each comes if and only if they are
decided on every selector that can be deleted at all and that the ledger does not know yet. -/
theorem mergeAll_order_iff {l l₁ : Ledger} (h₁ : mergeAll s locked d l rs = .ok l₁) :
    (∀ rs' : List Report, (∀ r, r ∈ rs' ↔ r ∈ rs) →
        ∃ l', mergeAll s locked d l rs' = .ok l' ∧ Same l' l₁) ↔
      ∀ file selector, Selector.isEligible selector = true →
        Knows s locked d l file selector ∨ Decided rs file selector := by
  constructor
  · intro h file selector he
    by_contra hc
    obtain ⟨hk, hd⟩ := not_or.1 hc
    have hl : ∃ r ∈ rs, ¬ Omits file selector r := by
      simp only [Decided, not_or, not_forall] at hd
      obtain ⟨⟨r, hr, ho⟩, -⟩ := hd
      exact ⟨r, hr, ho⟩
    have htwice (r : Report) : r ∈ rs ++ rs ↔ r ∈ rs := by rw [List.mem_append, or_self]
    obtain ⟨rs', hlast, hs⟩ := exists_steady hd
    obtain ⟨l₂, h₂, hsame₂⟩ := h _ htwice
    obtain ⟨l₃, h₃, hsame₃⟩ := h rs' hlast
    have hused : l₂.status? file selector = some .used := by
      rw [status?_mergeAll_of_unknown h₂ hk (by simpa only [htwice] using hl)]
      exact (Status.through_none_eq_used_iff he).2 (not_steady_twice hd)
    have hunused : l₃.status? file selector = some .unused := by
      rw [status?_mergeAll_of_unknown h₃ hk (by simpa only [hlast] using hl)]
      refine Status.through_none_of_steady he hs ?_
      simp only [Omits, not_forall, not_not] at hl
      obtain ⟨r, hr, u, hu, hl⟩ := hl
      exact ⟨u, List.mem_flatMap.2 ⟨r, (hlast r).2 hr, hu⟩, hl⟩
    have heq := ((hsame₂.trans hsame₃.symm) file).2 selector
    rw [hused, hunused] at heq
    cases heq
  · intro h rs' hr
    obtain ⟨l', h'⟩ := (exists_mergeAll_congr hr).2 ⟨l₁, h₁⟩
    refine ⟨l', h', fun file => ⟨?_, fun selector => status?_mergeAll_congr h₁ h' hr (h file selector)⟩⟩
    rw [Bool.eq_iff_iff, isSome_get?_mergeAll h', isSome_get?_mergeAll h₁]
    simp only [ne_eq, List.eq_nil_iff_forall_not_mem, mem_reportsOn_congr hr]

/-- A page whose own style has a rule that is not used, and one on which it is: it depends on which of them
comes last what is thought of the rule. -/
theorem not_mergeAll_order_inline :
    let unused : Report := Table.ofList [("inline", [(".y", none)])]
    let used : Report := Table.ofList [("inline", [])]
    ∃ l, mergeAll Site.small (fun _ => false) Site.smallDisk Table.empty [unused, used] = .ok l ∧
      ¬ ∀ rs' : List Report, (∀ r, r ∈ rs' ↔ r ∈ [unused, used]) →
        ∃ l', mergeAll Site.small (fun _ => false) Site.smallDisk Table.empty rs' = .ok l' ∧ Same l' l := by
  intro unused used
  have hk : SourceKey.ofReference "inline" = .ok SourceKey.inline := rfl
  have hunused : unused.entries = [(("inline" : Text), [((".y" : Text), none)])] := rfl
  have hused : used.entries = [(("inline" : Text), [])] := rfl
  obtain ⟨l, h⟩ : ∃ l, mergeAll Site.small (fun _ => false) Site.smallDisk Table.empty [unused, used] = .ok l := by
    simp [mergeAll, merge, hunused, hused, Merge.run, Merge.step, Merge.start, hk, firstStatuses,
      Table.get?_insert, Table.get?_empty]
  refine ⟨l, h, ?_⟩
  rw [mergeAll_order_iff h]
  intro hall
  have hy : (".y" : Text) ∈ reported [((".y" : Text), none)] := by decide
  have hone : reportsOn SourceKey.inline unused.entries = [[((".y" : Text), none)]] := reportsOn_cons_eq hk []
  have hnone : reportsOn SourceKey.inline used.entries = [[]] := reportsOn_cons_eq hk []
  have hlists : Lists SourceKey.inline ".y" unused := by simpa [Lists, hone] using hy
  have homits : Omits SourceKey.inline ".y" used := by simp [Omits, hnone, reported]
  rcases hall SourceKey.inline ".y" (by decide) with
    (hs | ⟨-, _, _, _, hr, -⟩) | ho | hl | ⟨r, hr, hs⟩ | ⟨r, hr, -, -, -, hw, -⟩
  · exact absurd hs (by decide)
  · simp [Site.read, Site.locate] at hr
  · exact ho unused List.mem_cons_self _ (by simp [hone]) hy
  · have := hl used (by simp)
    simp [Lists, hnone, reported] at this
  · refine hs ?_
    rcases List.mem_pair.1 hr with rfl | rfl
    · exact hone ▸ List.pairwise_singleton _ _
    · exact hnone ▸ List.pairwise_singleton _ _
  · rcases List.mem_pair.1 hr with rfl | rfl
    · exact hw.2 hlists
    · exact hw.1 homits

end Ledger
end StylePrune
