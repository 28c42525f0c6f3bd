import StylePrune.Proofs.Css.Prelude
import StylePrune.Proofs.Ledger.Merge
import StylePrune.Proofs.Site
import StylePrune.Generation

/-!
Which rules go when reports are merged into an empty ledger and the site stays as it is. Seeding
enters every selector of a sheet, so a rule's fate hangs on the reports alone.
-/

set_option autoImplicit false

namespace StylePrune
namespace Ledger

variable {s : Site} {locked : Text → Bool} {d : Disk}

/-- The ledger after reports, merged one after another. -/
def mergeAll (s : Site) (locked : Text → Bool) (d : Disk) (l : Ledger) : List Report → Except MergeError Ledger
  | [] => .ok l
  | r :: rs => match merge s locked d l r with
    | (m, none) => mergeAll s locked d m.ledger rs
    | (_, some e) => .error e

theorem mergeAll_cons_eq_ok {l l' : Ledger} {r : Report} {rs : List Report}
    (h : mergeAll s locked d l (r :: rs) = .ok l') :
    ∃ m, merge s locked d l r = (m, none) ∧ mergeAll s locked d m.ledger rs = .ok l' := by
  rw [mergeAll] at h
  split at h
  · rename_i m hm
    exact ⟨m, hm, h⟩
  · cases h

theorem get?_mergeAll_of_nil {l l' : Ledger} {rs : List Report} {file : Text}
    (h : mergeAll s locked d l rs = .ok l') (hf : reportsOn file (rs.flatMap (·.entries)) = []) :
    l'.get? file = l.get? file := by
  induction rs generalizing l with
  | nil => rw [Except.ok.inj h]
  | cons r rs ih =>
    obtain ⟨m, hm, hr⟩ := mergeAll_cons_eq_ok h
    rw [List.flatMap_cons, reportsOn_append, List.append_eq_nil_iff] at hf
    rw [ih hr hf.2, Merge.get?_run_of_nil hm hf.1]
    rfl

/-- All reports on a file act on it as those of one long report do. -/
theorem get?_mergeAll {l l' : Ledger} {rs : List Report} {file : Text}
    (h : mergeAll s locked d l rs = .ok l') (hf : reportsOn file (rs.flatMap (·.entries)) ≠ []) :
    ∃ k, opening s locked d l file = .ok k ∧
      l'.get? file = some (k.1.after (reportsOn file (rs.flatMap (·.entries)))) := by
  induction rs generalizing l with
  | nil => exact absurd rfl hf
  | cons r rs ih =>
    obtain ⟨m, hm, hr⟩ := mergeAll_cons_eq_ok h
    rw [List.flatMap_cons, reportsOn_append] at hf ⊢
    by_cases hn : reportsOn file r.entries = []
    · rw [hn, List.nil_append] at hf ⊢
      obtain ⟨k, hk, hl⟩ := ih hr hf
      refine ⟨k, ?_, hl⟩
      rwa [opening, Merge.get?_run_of_nil hm hn] at hk
    · obtain ⟨k, hk, hg⟩ := Merge.get?_run hm hn
      refine ⟨k, hk, ?_⟩
      by_cases hrs : reportsOn file (rs.flatMap (·.entries)) = []
      · rw [get?_mergeAll_of_nil hr hrs, hg, hrs, List.append_nil]
      · obtain ⟨k', hk', hl⟩ := ih hr hrs
        rw [opening_of_get? hg] at hk'
        obtain rfl := Except.ok.inj hk'
        rw [hl, Statuses.after_append]

/-- Some entry for the file lists the selector in every report that names the file. -/
def AlwaysListed (rs : List Report) (file selector : Text) : Prop :=
  ∀ r ∈ rs, ∀ e ∈ r.entries, SourceKey.ofReference e.1 = .ok file →
    ∃ use ∈ e.2, Selector.normalize use.1 = Selector.normalize selector

theorem alwaysListed_iff {rs : List Report} {file selector : Text}
    (hn : Selector.normalize selector = selector) (hs : selector ≠ []) :
    AlwaysListed rs file selector ↔
      ∀ u ∈ reportsOn file (rs.flatMap (·.entries)), selector ∈ reported u := by
  constructor
  · intro h u hu
    obtain ⟨reference, he, hf⟩ := exists_of_mem_reportsOn hu
    obtain ⟨r, hr, he⟩ := List.mem_flatMap.1 he
    obtain ⟨use, huse, hsel⟩ := h r hr _ he hf
    exact mem_reported.2 ⟨hs, use, huse, hsel.trans hn⟩
  · intro h r hr e he hf
    have hu : e.2 ∈ reportsOn file (rs.flatMap (·.entries)) :=
      mem_reportsOn (List.mem_flatMap.2 ⟨r, hr, he⟩) hf
    obtain ⟨-, use, huse, hsel⟩ := mem_reported.1 (h _ hu)
    exact ⟨use, huse, hsel.trans hn.symm⟩

/-- A selector of a sheet that is new to the ledger starts as presumed and takes the reports on its file in order. -/
theorem status?_mergeAll_new {l : Ledger} {rs : List Report} {file css selector : Text} {size : Nat} {sheet : Css.Sheet}
    (h : mergeAll s locked d Table.empty rs = .ok l) (hne : reportsOn file (rs.flatMap (·.entries)) ≠ [])
    (hr : Site.read s locked d file = .ok (css, size)) (hp : Css.Sheet.parse css = .ok sheet)
    (hs : selector ∈ sheet.uses.map Prod.fst) : l.status? file selector =
      Status.through selector (reportsOn file (rs.flatMap (·.entries))) (some (.presumed selector)) := by
  obtain ⟨k, hk, hg⟩ := get?_mergeAll h hne
  rw [opening_of_new (Table.get?_empty file), firstStatuses_of_read hr hp] at hk
  obtain rfl := Except.ok.inj hk
  rw [status?, hg, Option.bind_some, Statuses.get?_after, get?_enterAll_empty, if_pos hs]

theorem status?_merge_new {m : Merge} {r : Report} {file css selector : Text} {size : Nat} {sheet : Css.Sheet}
    {uses : List Css.Use} (h : merge s locked d Table.empty r = (m, none)) (he : (file, uses) ∈ r.entries)
    (hf : SourceKey.ofReference file = .ok file) (hr : Site.read s locked d file = .ok (css, size))
    (hp : Css.Sheet.parse css = .ok sheet) (hs : selector ∈ sheet.uses.map Prod.fst) :
    m.ledger.status? file selector =
      Status.through selector (reportsOn file r.entries) (some (.presumed selector)) := by
  have hl : mergeAll s locked d Table.empty [r] = .ok m.ledger := by simp [mergeAll, h]
  have hne : reportsOn file r.entries ≠ [] := List.ne_nil_of_mem (mem_reportsOn he hf)
  simpa using status?_mergeAll_new hl (by simpa using hne) hr hp hs

/-- From the empty ledger a selector of the sheet ends up unused when it is eligible and always listed. -/
theorem get?_eq_unused_iff {l : Ledger} {rs : List Report} {file css selector : Text} {size : Nat}
    {sheet : Css.Sheet} {st : Statuses} (h : mergeAll s locked d Table.empty rs = .ok l)
    (hf : l.get? file = some st) (hr : Site.read s locked d file = .ok (css, size))
    (hp : Css.Sheet.parse css = .ok sheet) (hs : selector ∈ sheet.uses.map Prod.fst)
    (hn : Selector.normalize selector = selector ∧ selector ≠ []) :
    st.get? selector = some .unused ↔ Selector.isEligible selector = true ∧ AlwaysListed rs file selector := by
  have hne : reportsOn file (rs.flatMap (·.entries)) ≠ [] := by
    intro hnil
    rw [get?_mergeAll_of_nil h hnil] at hf
    cases hf
  have hstatus : st.get? selector = l.status? file selector := by rw [status?, hf, Option.bind_some]
  rw [hstatus, status?_mergeAll_new h hne hr hp hs, Status.through_presumed_eq_unused_iff, alwaysListed_iff hn.1 hn.2]

end Ledger

namespace Generation

variable {u : Setup} {w : Faults} {d : Disk} {file : Text}

theorem exists_destination_of_read {r : Text × Nat} (h : Site.read u.site w.locked d file = .ok r) :
    ∃ path, u.destination d file = .ok path := by
  obtain ⟨place, _, _, hl, -⟩ := Site.read_eq_ok h
  obtain ⟨-, root, hroot, hplace, -⟩ := Site.locate_eq_ok hl
  exact ⟨Path.join u.output (Path.relative (Disk.pathOf root) (Disk.pathOf place)),
    by simp [Setup.destination, hroot, hplace, bind, Except.bind, pure, Except.pure]⟩

/-- A file that is done in time and can be read and parsed is cleaned. -/
theorem prepare_of_read {css : Text} {size : Nat} {sheet : Css.Sheet} (st : Statuses) (hw : w.late file = false)
    (hr : Site.read u.site w.locked d file = .ok (css, size)) (hp : Css.Sheet.parse css = .ok sheet) :
    ∃ path, prepare u w d file st =
      .ok (⟨file, (sheet.prune st).1.render, size, (sheet.prune st).2⟩, path) := by
  obtain ⟨path, hd⟩ := exists_destination_of_read hr
  exact ⟨path, by simp [prepare, hw, hr, clean, hp, Except.map, hd]⟩

/-- Of a file that some report on an empty ledger named, generation takes away the rules whose selectors
are all eligible and listed whenever the file was reported on, and no others. -/
theorem prepare_mergeAll {l : Ledger} {rs : List Report} {css : Text} {size : Nat} {sheet : Css.Sheet}
    {st : Statuses} (h : Ledger.mergeAll u.site w.locked d Table.empty rs = .ok l) (hf : l.get? file = some st)
    (hw : w.late file = false) (hr : Site.read u.site w.locked d file = .ok (css, size))
    (hp : Css.Sheet.parse css = .ok sheet) :
    (∃ path, prepare u w d file st =
      .ok (⟨file, (sheet.prune st).1.render, size, (sheet.prune st).2⟩, path)) ∧
      (sheet.prune st).1.blocks = sheet.blocks.filter (fun b => !b.isDead st) ∧
      ∀ b ∈ sheet.blocks, b.isDead st = true ↔ b.selectors ≠ [] ∧
        ∀ s ∈ b.selectors, Selector.isEligible s = true ∧ Ledger.AlwaysListed rs file s := by
  refine ⟨prepare_of_read st hw hr hp, sheet.blocks_prune st, fun b hb => ?_⟩
  rw [Css.Block.isDead_iff]
  refine and_congr_right fun _ => forall₂_congr fun s hs => and_congr_right fun he => ?_
  have hs' : s ∈ sheet.uses.map Prod.fst := by
    rw [Css.Sheet.map_fst_uses]
    exact List.mem_flatMap.2 ⟨b, hb, hs⟩
  rw [Ledger.get?_eq_unused_iff h hf hr hp hs' (Css.Sheet.normalize_selector hp hb hs)]
  exact and_iff_right he

/-- Two pages of the small site that do not use its one rule have it deleted. -/
theorem prepare_mergeAll_small :
    let u : Setup := ⟨Site.small, "/out", defaultBundleName, 1, "100", none⟩
    let r : Report := Table.ofList [("/a.css", [(".y", none)])]
    ∃ l st sheet, Ledger.mergeAll u.site Faults.none.locked Site.smallDisk Table.empty [r, r] = .ok l ∧
      l.get? "a.css" = some st ∧ Css.Sheet.parse ".y\x7b\x7d" = .ok sheet ∧
      sheet.blocks.length = 1 ∧ (sheet.prune st).1.blocks = [] := by
  intro u r
  have hk : SourceKey.ofReference "/a.css" = .ok "a.css" := rfl
  have hr : r.entries = [(("/a.css" : Text), [((".y" : Text), none)])] := rfl
  obtain ⟨sheet, hp, hu⟩ := Css.exists_of_map_eq_ok Css.Sheet.selectors_small
  have ho := Ledger.firstStatuses_of_read Site.read_small hp
  obtain ⟨l, hl⟩ : ∃ l, Ledger.mergeAll u.site Faults.none.locked Site.smallDisk Table.empty [r, r] = .ok l := by
    simp [Ledger.mergeAll, Ledger.merge, hr, Ledger.Merge.run, Ledger.Merge.step, Ledger.Merge.start, hk,
      Table.get?_insert, Faults.none, u, ho]
  have hes : Ledger.reportsOn "a.css" ([r, r].flatMap (·.entries)) = [[((".y" : Text), none)], [(".y", none)]] := rfl
  obtain ⟨k, -, hf⟩ := Ledger.get?_mergeAll hl (by rw [hes]; simp)
  obtain ⟨-, hb, hd⟩ := prepare_mergeAll (u := u) (w := Faults.none) hl hf rfl Site.read_small hp
  refine ⟨l, _, sheet, hl, hf, hp, by simpa using congrArg List.length hu, ?_⟩
  rw [hb, List.filter_eq_nil_iff]
  intro b hmem
  have hsel : b.selectors = [(".y" : Text)] := by simpa [hu] using List.mem_map_of_mem (f := Css.Block.selectors) hmem
  have hlisted : Ledger.AlwaysListed [r, r] "a.css" ".y" := by
    intro r' hr' e he _
    obtain rfl : r' = r := by simpa using hr'
    obtain rfl : e = (("/a.css" : Text), [((".y" : Text), none)]) := by simpa [hr] using he
    exact ⟨_, List.mem_cons_self, rfl⟩
  have he : Selector.isEligible ".y" = true := by decide
  rw [(hd b hmem).2 ⟨by simp [hsel], by simp [hsel, hlisted, he]⟩]
  simp

end Generation
end StylePrune
