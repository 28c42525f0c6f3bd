import StylePrune.Generation
import StylePrune.Proofs.Css.Prelude
import StylePrune.Proofs.Disk
import StylePrune.Proofs.Ledger.Merge
import StylePrune.Proofs.Site
import StylePrune.Service

/-!
Ledgers over time. Reports come one after another while the site's files may change in between; a
merge that fails is dropped with all it did. A page that is seen to use a selector clears it for good
if the ledger knows the selector by then, and only then: one that a stylesheet gained after its file
was opened is forgotten until a report lists it.
-/

set_option autoImplicit false

namespace StylePrune.Ledger

/-- A report, and the disk as it is when the report is merged. -/
structure Visit where
  disk : Disk
  locked : Text → Bool
  report : Report

/-- The ledger after a visit. -/
def keep (s : Site) (l : Ledger) (v : Visit) : Ledger :=
  match merge s v.locked v.disk l v.report with
  | (m, none) => m.ledger
  | (_, some _) => l

def replay (s : Site) (l : Ledger) (vs : List Visit) : Ledger := vs.foldl (keep s) l

theorem transaction_eq_ok {ε α : Type} {wrap : StoreError → ε} {path : Text} {refuse : Bool}
    {change : Ledger → Disk → Except ε (Ledger × α)} {d d' : Disk} {a : α}
    (h : transaction wrap path refuse change d = (.ok a, d')) :
    ∃ d₁ l l', load path d₁ = .ok l ∧ change l d₁ = .ok (l', a) ∧ save path l' refuse d₁ = (.ok (), d') := by
  obtain ⟨_, d₁, -, h₁⟩ := Disk.Action.bind_eq_ok h
  obtain ⟨l, d₂, hl, h₂⟩ := Disk.Action.bind_eq_ok h₁
  obtain ⟨⟨l', x⟩, d₃, hc, h₃⟩ := Disk.Action.bind_eq_ok h₂
  obtain ⟨_, d₄, hs, h₄⟩ := Disk.Action.bind_eq_ok h₃
  obtain ⟨hl, rfl⟩ := Disk.Action.ask_eq_ok (Disk.Action.mapError_eq_ok hl)
  obtain ⟨hc, rfl⟩ := Disk.Action.ask_eq_ok hc
  obtain ⟨ha, rfl⟩ := Prod.mk.inj h₄
  obtain rfl := Except.ok.inj ha
  exact ⟨_, l, l', hl, hc, Disk.Action.mapError_eq_ok hs⟩

theorem transaction_of_ok {ε α : Type} {wrap : StoreError → ε} {path : Text} {refuse : Bool}
    {change : Ledger → Disk → Except ε (Ledger × α)} {d d₁ d' : Disk} {l l' : Ledger} {x : α}
    (hlock : lock path d = (.ok (), d₁)) (hl : load path d₁ = .ok l) (hc : change l d₁ = .ok (l', x))
    (hs : Disk.replaceFile path l'.toJson.render refuse d₁ = (.ok (), d')) :
    transaction wrap path refuse change d = (.ok x, d') := by
  have hsave : save path l' refuse d₁ = (.ok (), d') := Disk.Action.mapError_of_ok hs _
  rw [transaction, Disk.Action.bind_of_ok (Disk.Action.mapError_of_ok hlock _),
    Disk.Action.bind_of_ok (Disk.Action.mapError_of_ok (Disk.Action.ask_of_ok hl) _),
    Disk.Action.bind_of_ok (Disk.Action.ask_of_ok hc)]
  exact Disk.Action.bind_of_ok (Disk.Action.mapError_of_ok hsave wrap) _

/-- A request that succeeds, be it to save or to generate, saves the ledger of one visit and goes on
with it. -/
theorem keep_of_commit {p : Service.Deployment} {w : Faults} {r : Report} {d d' : Disk}
    {m : Service.Merged × Ledger} (h : Service.commit p w r d = (.ok m, d')) :
    ∃ d₁ l, load p.ledgerFile d₁ = .ok l ∧ m.2 = keep p.generation.site l ⟨d₁, w.locked, r⟩ ∧
      save p.ledgerFile m.2 (w.unwritable .ledger) d₁ = (.ok (), d') := by
  obtain ⟨d₁, l, l', hl, hc, hs⟩ := transaction_eq_ok h
  refine ⟨d₁, l, hl, ?_⟩
  cases hm : merge p.generation.site w.locked d₁ l r with
  | mk k e =>
    cases e with
    | some e => simp [hm] at hc
    | none =>
      simp only [hm, Except.ok.injEq, Prod.mk.injEq] at hc
      obtain ⟨rfl, rfl⟩ := hc
      exact ⟨by simp only [keep, hm], hs⟩

variable {s : Site}

/-- The selector is cleared in the file, or can never be deleted anyway. -/
def Settled (l : Ledger) (file selector : Text) : Prop :=
  l.status? file selector = some .used ∨
    Selector.isEligible selector = false ∧ (l.get? file).isSome ∧ l.status? file selector ≠ some .unused

theorem status?_run {locked : Text → Bool} {d : Disk} {m m' : Merge} {es : List (Text × List Css.Use)}
    {file : Text} {st : Statuses} (h : m.run s locked d es = (m', none)) (hf : m.ledger.get? file = some st) :
    m'.ledger.get? file = some (st.after (reportsOn file es)) := by
  by_cases hes : reportsOn file es = []
  · rw [Merge.get?_run_of_nil h hes, hf, hes]
    rfl
  · obtain ⟨k, hk, hm⟩ := Merge.get?_run h hes
    rw [opening_of_get? hf] at hk
    obtain rfl := Except.ok.inj hk
    exact hm

theorem Settled.run {locked : Text → Bool} {d : Disk} {m m' : Merge} {es : List (Text × List Css.Use)}
    {file selector : Text} (h : m.run s locked d es = (m', none)) (hs : Settled m.ledger file selector) :
    Settled m'.ledger file selector := by
  rcases hs with hu | ⟨he, hf, hn⟩
  · obtain ⟨st, hf, hst⟩ := Option.bind_eq_some_iff.1 hu
    left
    rw [status?, status?_run h hf, Option.bind_some, Statuses.get?_after, hst, Status.through_used]
  · obtain ⟨st, hf⟩ := Option.isSome_iff_exists.1 hf
    rw [status?, hf, Option.bind_some] at hn
    refine .inr ⟨he, by rw [status?_run h hf]; rfl, ?_⟩
    rw [status?, status?_run h hf, Option.bind_some, Statuses.get?_after]
    exact Status.through_ne_unused he _ hn

theorem Settled.keep {l : Ledger} {file selector : Text} (hs : Settled l file selector) (v : Visit) :
    Settled (keep s l v) file selector := by
  unfold Ledger.keep
  split
  · rename_i m h
    exact Settled.run (m := .start l) h hs
  · exact hs

theorem Settled.replay {l : Ledger} {file selector : Text} (hs : Settled l file selector) (vs : List Visit) :
    Settled (replay s l vs) file selector := by
  induction vs generalizing l with
  | nil => exact hs
  | cons v vs ih => exact ih (hs.keep v)

/-- The selector is not unused in the file, and cleaning the file by the ledger, whatever it holds by
then, takes no rule away that has the selector. -/
def Spares (l : Ledger) (file selector : Text) : Prop :=
  l.status? file selector ≠ some .unused ∧
    ∀ st css sheet, l.get? file = some st → Css.Sheet.parse css = .ok sheet →
      Generation.clean st css = .ok ((sheet.prune st).1.render, (sheet.prune st).2) ∧
      (sheet.prune st).1.blocks.filter (selector ∈ ·.selectors) = sheet.blocks.filter (selector ∈ ·.selectors)

theorem Settled.spares {l : Ledger} {file selector : Text} (hs : Settled l file selector) :
    Spares l file selector := by
  have hn : l.status? file selector ≠ some .unused := by
    rcases hs with hu | ⟨-, -, hn⟩
    · simp [hu]
    · exact hn
  refine ⟨hn, fun st css sheet hf hp => ⟨by simp [Generation.clean, hp, Except.map], ?_⟩⟩
  rw [status?, hf, Option.bind_some] at hn
  exact sheet.filter_blocks_prune hn

/-- A report that names one file and lists one selector. -/
def Visit.listing (v : Visit) (reference selector : Text) : Visit :=
  { v with report := Table.ofList [(reference, [(selector, none)])] }

/-- A selector of a file in the ledger that is not cleared there becomes unused with the next report
that lists it. -/
theorem status?_keep_listing {l : Ledger} {st : Statuses} {file reference selector : Text} (v : Visit)
    (hf : l.get? file = some st) (hr : SourceKey.ofReference reference = .ok file)
    (he : Selector.isEligible selector = true) (hn : Selector.normalize selector = selector)
    (hu : l.status? file selector ≠ some .used) :
    (keep s l (v.listing reference selector)).status? file selector = some .unused := by
  have hs : selector ≠ [] := hn ▸ ((Selector.isEligible_iff selector).1 he).1
  have hl : selector ∈ reported [(selector, none)] := mem_reported.2 ⟨hs, _, List.mem_cons_self, hn⟩
  have hk : (keep s l (v.listing reference selector)).get? file =
      some (st.witness (reported [(selector, none)])) := by
    have he : (v.listing reference selector).report.entries = [(reference, [(selector, none)])] := rfl
    simp [keep, merge, he, Merge.run, Merge.step, Merge.start, hr, hf, Table.get?_insert]
  rw [status?, hf, Option.bind_some] at hu
  rw [status?, hk, Option.bind_some, Statuses.get?_witness, decide_eq_true hl]
  have hp := (Status.presumed_eq_unused_iff selector).2 he
  cases hg : st.get? selector with
  | none => simp [Status.next, hp]
  | some o =>
    cases o with
    | used => exact absurd hg hu
    | unused => simp [Status.next, hp]

/-- A page that does not list a selector of a sheet clears it for good in two cases: the selector can
never be deleted, or the ledger knows it when the page's report comes, be it that the file is new, that
an earlier report or the sheet as it was then named it, or that this report does. -/
theorem spares_forever_iff {l : Ledger} {v : Visit} {m : Merge} {file css selector : Text} {size : Nat}
    {sheet : Css.Sheet} (h : merge s v.locked v.disk l v.report = (m, none))
    (hr : Site.read s v.locked v.disk file = .ok (css, size)) (hp : Css.Sheet.parse css = .ok sheet)
    (hs : selector ∈ sheet.uses.map Prod.fst)
    (hu : ∃ u ∈ reportsOn file v.report.entries, selector ∉ reported u) :
    (∀ vs, Spares (replay s m.ledger vs) file selector) ↔
      Selector.isEligible selector = false ∨
        ∃ a u b, reportsOn file v.report.entries = a ++ u :: b ∧ selector ∉ reported u ∧
          (l.get? file = none ∨ (l.status? file selector).isSome ∨ ∃ x ∈ a, selector ∈ reported x) := by
  have hne : reportsOn file v.report.entries ≠ [] := by
    obtain ⟨u, hu, -⟩ := hu
    exact List.ne_nil_of_mem hu
  obtain ⟨k, hk, hm⟩ := Merge.get?_run h hne
  have hst : m.ledger.status? file selector =
      Status.through selector (reportsOn file v.report.entries) (k.1.get? selector) := by
    rw [status?, hm, Option.bind_some, Statuses.get?_after]
  have hnew : l.get? file = none → k.1.get? selector = some (.presumed selector) := by
    intro hl
    rw [Merge.start, opening_of_new hl, firstStatuses_of_read hr hp] at hk
    obtain rfl := Except.ok.inj hk
    rw [get?_enterAll_empty, if_pos hs]
  have hold : (l.get? file).isSome → k.1.get? selector = l.status? file selector := by
    intro hl
    obtain ⟨st, hl⟩ := Option.isSome_iff_exists.1 hl
    rw [Merge.start, opening_of_get? hl] at hk
    obtain rfl := Except.ok.inj hk
    rw [status?, hl, Option.bind_some]
  constructor
  · intro hall
    by_cases he : Selector.isEligible selector = true
    · right
      by_cases hex : ∃ a u b, reportsOn file v.report.entries = a ++ u :: b ∧ selector ∉ reported u ∧
          (l.get? file = none ∨ (l.status? file selector).isSome ∨ ∃ x ∈ a, selector ∈ reported x)
      · exact hex
      · -- the next report that lists the selector makes it unused
        exfalso
        obtain ⟨u, hu, hsu⟩ := hu
        obtain ⟨a, b, hab⟩ := List.append_of_mem hu
        have hl : (l.get? file).isSome := by
          by_cases hl : l.get? file = none
          · exact absurd ⟨a, u, b, hab, hsu, .inl hl⟩ hex
          · exact Option.isSome_iff_ne_none.2 hl
        have hn : l.status? file selector = none := by
          by_cases hn : (l.status? file selector).isSome
          · exact absurd ⟨a, u, b, hab, hsu, .inr (.inl hn)⟩ hex
          · simpa using hn
        have hused : m.ledger.status? file selector ≠ some .used := by
          rw [hst, hold hl, hn]
          refine Status.through_none_ne_used he fun a u b hab hsu x hx hsx => ?_
          exact hex ⟨a, u, b, hab, hsu, .inr (.inr ⟨x, hx, hsx⟩)⟩
        obtain ⟨reference, -, href⟩ := exists_of_mem_reportsOn hu
        rw [Css.Sheet.map_fst_uses] at hs
        obtain ⟨b, hb, hs⟩ := List.mem_flatMap.1 hs
        have hnorm := (Css.Sheet.normalize_selector hp hb hs).1
        exact (hall [v.listing reference selector]).1 (status?_keep_listing v hm href he hnorm hused)
    · exact .inl (by simpa using he)
  · intro hcase vs
    refine Settled.spares (Settled.replay ?_ vs)
    rcases hcase with he | ⟨a, u, b, hab, hsu, hknown⟩
    · cases ho : k.1.get? selector with
      | none =>
        refine .inr ⟨he, by rw [hm]; rfl, ?_⟩
        rw [hst, ho]
        exact Status.through_ne_unused he _ (by simp)
      | some o =>
        left
        rw [hst, ho, Status.through_of_unlisted rfl hu]
    · left
      rw [hst]
      rcases hknown with hl | hl | hx
      · rw [hnew hl]
        exact Status.through_of_unlisted rfl hu
      · have hf : (l.get? file).isSome := by
          obtain ⟨o, ho⟩ := Option.isSome_iff_exists.1 hl
          obtain ⟨st, hf, -⟩ := Option.bind_eq_some_iff.1 ho
          rw [hf]
          rfl
        exact Status.through_of_unlisted (hold hf ▸ hl) hu
      · rw [hab, Status.through_append]
        exact Status.through_of_unlisted (Status.isSome_through_of_listed _ hx) ⟨u, List.mem_cons_self, hsu⟩

/-- The ledger of the small site from before its stylesheet got its rule. -/
def earlier : Ledger := Table.ofList [("a.css", Table.ofList [(".x", .used)])]

/-- A page uses the new rule, and yet later reports can have it deleted. -/
theorem not_spares_forever_earlier :
    ∃ m, merge Site.small (fun _ => false) Site.smallDisk earlier (Table.ofList [("/a.css", [])]) = (m, none) ∧
      ¬ ∀ vs, Spares (replay Site.small m.ledger vs) "a.css" ".y" := by
  let v : Visit := ⟨Site.smallDisk, fun _ => false, Table.ofList [("/a.css", [])]⟩
  have hk : SourceKey.ofReference "/a.css" = .ok "a.css" := rfl
  have hv : v.report.entries = [(("/a.css" : Text), [])] := rfl
  have hl : earlier.get? "a.css" = some (Table.ofList [((".x" : Text), Status.used)]) := rfl
  have hn : earlier.status? "a.css" ".y" = none := by decide
  obtain ⟨m, hm⟩ : ∃ m, merge Site.small v.locked v.disk earlier v.report = (m, none) := by
    simp [merge, hv, Merge.run, Merge.step, Merge.start, hk, hl]
  obtain ⟨sheet, hp, hu⟩ := Css.exists_of_map_eq_ok Css.Sheet.selectors_small
  have hs : (".y" : Text) ∈ sheet.uses.map Prod.fst := by
    rw [Css.Sheet.map_fst_uses, List.flatMap_def, hu]
    simp
  have he : reportsOn "a.css" v.report.entries = [[]] := reportsOn_cons_eq hk []
  refine ⟨m, hm, ?_⟩
  rw [spares_forever_iff hm Site.read_small hp hs ⟨[], by simp [he], by simp [reported]⟩]
  rintro (h | ⟨a, u, b, hab, -, h | h | ⟨x, hx, -⟩⟩)
  · have : Selector.isEligible ".y" = true := by decide
    simp [this] at h
  · simp [hl] at h
  · simp [hn] at h
  · have hlen : a.length + (b.length + 1) = 1 := by simpa [he] using (congrArg List.length hab).symm
    obtain rfl : a = [] := List.length_eq_zero_iff.1 (by omega)
    cases hx

end StylePrune.Ledger
