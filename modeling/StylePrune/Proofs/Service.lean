import StylePrune.Proofs.Confinement
import StylePrune.Proofs.Ledger.History
import StylePrune.Proofs.Ledger.Stored

/-!
What requests do to the ledger in its file. Each one either leaves the file alone or puts there the ledger as it was
with one report merged into it, and what generation does after that does not matter, as long as the ledger does not
stand among what generation writes. So over any number of requests what is known stays known, and what is used stays
used.
-/

set_option autoImplicit false

namespace StylePrune

namespace Ledger

/-- How a ledger goes on while reports come. Nothing that it holds is lost or loses the status used, and files of
which no report speaks are left alone. -/
structure Continues (rs : List Report) (l l' : Ledger) : Prop where
  known : ∀ file selector, (l.status? file selector).isSome → (l'.status? file selector).isSome
  used : ∀ file selector, l.status? file selector = some .used → l'.status? file selector = some .used
  others : ∀ file, (∀ r ∈ rs, reportsOn file r.entries = []) → l'.get? file = l.get? file

variable {rs rs' : List Report} {l l' l'' : Ledger}

theorem Continues.refl (rs : List Report) (l : Ledger) : Continues rs l l :=
  ⟨fun _ _ => id, fun _ _ => id, fun _ _ => rfl⟩

theorem Continues.trans (h : Continues rs l l') (h' : Continues rs' l' l'') : Continues (rs ++ rs') l l'' where
  known file selector hs := h'.known file selector (h.known file selector hs)
  used file selector hs := h'.used file selector (h.used file selector hs)
  others file hr :=
    (h'.others file fun r hr' => hr r (List.mem_append_right _ hr')).trans
      (h.others file fun r hr' => hr r (List.mem_append_left _ hr'))

theorem continues_of_merge {s : Site} {locked : Text → Bool} {d : Disk} {r : Report} {m : Merge}
    (h : merge s locked d l r = (m, none)) : Continues [r] l m.ledger := by
  -- each status in the new ledger is the old one after the reports on its file
  have through {file selector : Text} {v : Status} (hv : l.status? file selector = some v) :
      m.ledger.status? file selector = Status.through selector (reportsOn file r.entries) (some v) := by
    obtain ⟨st, hf, hst⟩ := Option.bind_eq_some_iff.1 hv
    rw [status?, status?_run (m := Merge.start l) h hf, Option.bind_some, Statuses.get?_after, hst]
  refine ⟨fun file selector hs => ?_, fun file selector hs => ?_, fun file hr => ?_⟩
  · obtain ⟨v, hv⟩ := Option.isSome_iff_exists.1 hs
    rw [through hv]
    exact Status.isSome_through _ rfl
  · rw [through hs, Status.through_used]
  · exact Merge.get?_run_of_nil h (hr r List.mem_cons_self)

end Ledger

namespace Service

open Disk (Inherits)
open Ledger (Seat)

variable {p : Deployment} {w : Faults} {r : Report} {d d₀ d' : Disk} {q : Place}

/-- After a request the file holds the ledger that it held before, with the request's report merged into it. -/
def HoldsMerged (p : Deployment) (w : Faults) (r : Report) (d d' : Disk) : Prop := ∃ l m content,
  Ledger.load p.ledgerFile d = .ok l ∧
  Ledger.merge p.generation.site w.locked (Ledger.lock p.ledgerFile d).2 l r = (m, none) ∧
  Utf8.encode? m.ledger.toJson.render = some content ∧ d'.entryAt? p.ledgerFile = some (.file content 0)

theorem HoldsMerged.continues {l : Ledger} (h : HoldsMerged p w r d d') (hl : Ledger.load p.ledgerFile d = .ok l) :
    ∃ l', Ledger.load p.ledgerFile d' = .ok l' ∧ Ledger.Continues [r] l l' := by
  obtain ⟨l₁, m, content, hl₁, hm, hc, he⟩ := h
  obtain rfl := Except.ok.inj (hl₁.symm.trans hl)
  exact ⟨m.ledger, Ledger.load_of_encode? hc he, Ledger.continues_of_merge hm⟩

/-- A commit that fails leaves the file as it is; one that succeeds has merged the report. -/
theorem commit_cases {res : Except Error (Merged × Ledger)} (hs : Seat d p.ledgerFile q)
    (h : commit p w r d = (res, d')) : Inherits d d' ∧ Seat d' p.ledgerFile q ∧
      ((∃ e, res = .error e ∧ ∀ x, e ≠ .run x) ∧ d'.entryAt? p.ledgerFile = d.entryAt? p.ledgerFile ∨
        (∃ m, res = .ok m) ∧ HoldsMerged p w r d d' ∧ d'.find p.ledgerFile = .ok q) := by
  obtain ⟨hi, hseat, ⟨⟨e, rfl, hcause⟩, hentry⟩ | ⟨m, l, l', content, rfl, hl, hchange, hc, hf, he⟩⟩ :=
    hs.transaction_cases h
  · refine ⟨hi, hseat, .inl ⟨⟨e, rfl, fun x => ?_⟩, hentry⟩⟩
    rcases hcause with ⟨s, rfl⟩ | ⟨l, hchange⟩
    · simp
    · dsimp only at hchange
      split at hchange
      · obtain rfl := Except.error.inj hchange
        simp
      · cases hchange
  · refine ⟨hi, hseat, .inr ⟨⟨m, rfl⟩, ?_, hf⟩⟩
    cases hm : Ledger.merge p.generation.site w.locked (Ledger.lock p.ledgerFile d).2 l r with
    | mk k e =>
      cases e with
      | some e => simp [hm] at hchange
      | none =>
        simp only [hm, Except.ok.injEq, Prod.mk.injEq] at hchange
        obtain ⟨rfl, -⟩ := hchange
        exact ⟨l, k, content, hl, hm, hc, Disk.entryAt?_eq_some_iff.2 ⟨q, hf, he⟩⟩

theorem save_cases {res : Except Error Merged} (hs : Seat d p.ledgerFile q) (h : save p w r d = (res, d')) :
    Inherits d d' ∧ Seat d' p.ledgerFile q ∧
      ((∃ e, res = .error e) ∧ d'.entryAt? p.ledgerFile = d.entryAt? p.ledgerFile ∨
        (∃ m, res = .ok m) ∧ HoldsMerged p w r d d') := by
  cases hc : commit p w r d with
  | mk c d₁ =>
    obtain ⟨hi, hseat, ⟨⟨e, rfl, -⟩, hentry⟩ | ⟨⟨m, rfl⟩, hmerged, -⟩⟩ := commit_cases hs hc
    · rw [save, Disk.Action.bind_of_error hc] at h
      obtain ⟨rfl, rfl⟩ := Prod.mk.inj h
      exact ⟨hi, hseat, .inl ⟨⟨e, rfl⟩, hentry⟩⟩
    · rw [save, Disk.Action.bind_of_ok hc] at h
      obtain ⟨rfl, rfl⟩ := Prod.mk.inj h
      exact ⟨hi, hseat, .inr ⟨⟨_, rfl⟩, hmerged⟩⟩

/-- The ledger stands apart from what generation writes. -/
structure Apart (p : Deployment) (d : Disk) (q : Place) : Prop where
  seat : Seat d p.ledgerFile q
  confined : p.generation.Confined d
  outside : ¬ p.generation.Room d q

/-- Generation fails before the report is merged, and then leaves the file as it is, or it goes on from the merged
ledger, which stays in the file however generation ends. -/
theorem generate_cases {moment : Text} {res : Except Error (Merged × Generation.Result)} (ha : Apart p d₀ q)
    (h₀ : Inherits d₀ d) (hs : Seat d p.ledgerFile q) (hm : Path.Descends moment)
    (h : generate p w moment r d = (res, d')) : Inherits d d' ∧ Seat d' p.ledgerFile q ∧
      ((∃ e, res = .error e ∧ ∀ x, e ≠ .run x) ∧ d'.entryAt? p.ledgerFile = d.entryAt? p.ledgerFile ∨
        ((∃ a, res = .ok a) ∨ ∃ x, res = .error (.run x)) ∧ HoldsMerged p w r d d') := by
  cases hc : commit p w r d with
  | mk c d₁ =>
    obtain ⟨hi, hseat, ⟨⟨e, rfl, hne⟩, hentry⟩ | ⟨⟨m, rfl⟩, ⟨l, k, content, hl, hk, hbytes, he⟩, hf⟩⟩ :=
      commit_cases hs hc
    · rw [generate, Disk.Action.bind_of_error hc] at h
      obtain ⟨rfl, rfl⟩ := Prod.mk.inj h
      exact ⟨hi, hseat, .inl ⟨⟨e, rfl, hne⟩, hentry⟩⟩
    · rw [generate, Disk.Action.bind_of_ok hc] at h
      have hlinks := h₀.trans hi
      have hrun := ha.confined.run hlinks w hm m.2 d₁ (Disk.Evolves.refl _ _ d₁)
      obtain ⟨q', hq', heq⟩ := Disk.entryAt?_eq_some_iff.1 he
      obtain rfl := Except.ok.inj (hq'.symm.trans hf)
      obtain ⟨hseat', he'⟩ := hseat.of_evolves hrun
        (fun x t hx hxt => ha.confined.unlinked x t hx (hlinks.link x t hxt)) hf heq ha.outside
      have hmerged : HoldsMerged p w r d (Generation.run p.generation w moment m.2 d₁).2 :=
        ⟨l, k, content, hl, hk, hbytes, he'⟩
      cases hr : Generation.run p.generation w moment m.2 d₁ with
      | mk a d₂ =>
        rw [hr] at hrun hseat' hmerged
        cases a with
        | ok written =>
          rw [Disk.Action.bind_of_ok (Disk.Action.mapError_of_ok hr _)] at h
          obtain ⟨rfl, rfl⟩ := Prod.mk.inj h
          exact ⟨hi.trans hrun.inherits, hseat', .inr ⟨.inl ⟨_, rfl⟩, hmerged⟩⟩
        | error x =>
          rw [Disk.Action.bind_of_error (Disk.Action.mapError_of_error hr _)] at h
          obtain ⟨rfl, rfl⟩ := Prod.mk.inj h
          exact ⟨hi.trans hrun.inherits, hseat', .inr ⟨.inr ⟨x, rfl⟩, hmerged⟩⟩

/-! ## Many requests -/

/-- A request, with what its surroundings do to it. -/
inductive Call where
  | save (w : Faults) (r : Report)
  | generate (w : Faults) (m : Backup.Moment) (r : Report)

def Call.report : Call → Report
  | save _ r | generate _ _ r => r

/-- The disk after a request, whatever came of it. -/
def Call.run (p : Deployment) (d : Disk) : Call → Disk
  | save w r => (Service.save p w r d).2
  | generate w m r => (Service.generate p w m.stamp r d).2

def runAll (p : Deployment) (d : Disk) (cs : List Call) : Disk := cs.foldl (Call.run p) d

/-- A request takes a ledger that can be loaded on to one that can be loaded. -/
theorem Call.run_continues {l : Ledger} (ha : Apart p d₀ q) (h₀ : Inherits d₀ d) (hs : Seat d p.ledgerFile q)
    (hl : Ledger.load p.ledgerFile d = .ok l) (c : Call) : Inherits d₀ (c.run p d) ∧ Seat (c.run p d) p.ledgerFile q ∧
      ∃ l', Ledger.load p.ledgerFile (c.run p d) = .ok l' ∧ Ledger.Continues [c.report] l l' := by
  have unchanged {d' : Disk} (h : d'.entryAt? p.ledgerFile = d.entryAt? p.ledgerFile) :
      ∃ l', Ledger.load p.ledgerFile d' = .ok l' ∧ Ledger.Continues [c.report] l l' :=
    ⟨l, by rw [Ledger.load_eq, h, ← Ledger.load_eq, hl], .refl _ l⟩
  cases c with
  | save w r =>
    obtain ⟨hi, hseat, ⟨-, hentry⟩ | ⟨-, hmerged⟩⟩ := save_cases hs (Prod.eta (Service.save p w r d)).symm
    · exact ⟨h₀.trans hi, hseat, unchanged hentry⟩
    · exact ⟨h₀.trans hi, hseat, hmerged.continues hl⟩
  | generate w m r =>
    obtain ⟨hi, hseat, ⟨-, hentry⟩ | ⟨-, hmerged⟩⟩ := generate_cases ha h₀ hs m.descends_stamp
      (Prod.eta (Service.generate p w m.stamp r d)).symm
    · exact ⟨h₀.trans hi, hseat, unchanged hentry⟩
    · exact ⟨h₀.trans hi, hseat, hmerged.continues hl⟩

theorem runAll_cases {l : Ledger} (ha : Apart p d₀ q) (h₀ : Inherits d₀ d) (hs : Seat d p.ledgerFile q)
    (hl : Ledger.load p.ledgerFile d = .ok l) (cs : List Call) :
    Inherits d₀ (runAll p d cs) ∧ Seat (runAll p d cs) p.ledgerFile q ∧
      ∃ l', Ledger.load p.ledgerFile (runAll p d cs) = .ok l' ∧ Ledger.Continues (cs.map Call.report) l l' := by
  induction cs generalizing d l with
  | nil => exact ⟨h₀, hs, l, hl, .refl _ l⟩
  | cons c cs ih =>
    obtain ⟨hi, hseat, l₁, hl₁, hc⟩ := c.run_continues ha h₀ hs hl
    obtain ⟨hi', hseat', l₂, hl₂, hcs⟩ := ih hi hseat hl₁
    exact ⟨hi', hseat', l₂, hl₂, hc.trans hcs⟩

/-- Over any requests, failing ones included, the ledger in the file goes on from what it was at any earlier point, if
it stands apart from what generation writes. -/
theorem runAll_continues {l : Ledger} (ha : Apart p d q) (hl : Ledger.load p.ledgerFile d = .ok l)
    (before between : List Call) : ∃ l₁ l₂, Ledger.load p.ledgerFile (runAll p d before) = .ok l₁ ∧
      Ledger.load p.ledgerFile (runAll p d (before ++ between)) = .ok l₂ ∧
      Ledger.Continues (between.map Call.report) l₁ l₂ := by
  obtain ⟨hi, hseat, l₁, hl₁, -⟩ := runAll_cases ha (Inherits.refl d) ha.seat hl before
  obtain ⟨-, -, l₂, hl₂, hc⟩ := runAll_cases ha hi hseat hl₁ between
  exact ⟨l₁, l₂, hl₁, by rwa [runAll, List.foldl_append], hc⟩

/-- The small site with its ledger in a file beside it. -/
def beside : Deployment := ⟨"/l", Generation.inner⟩

def besideBytes : Bytes := "\x7b\"a.css\":\x7b\".y\":\"used\"\x7d\x7d".toUTF8.toList

def besideDisk : Disk := Generation.innerDisk [(["l"], .file besideBytes 0)]

theorem load_beside :
    Ledger.load "/l" besideDisk = .ok (Table.ofList [("a.css", Table.ofList [(".y", .used)])]) := by cbv

theorem apart_beside : Apart beside besideDisk ["l"] where
  seat := .there (e := .file besideBytes 0) (by cbv) (by cbv)
  confined := by
    have he : besideDisk.entries.entries = [([("s" : Text)], .directory),
      (["s", "a.css"], .file ".y\x7b\x7d".toUTF8.toList 0), (["l"], .file besideBytes 0)] := rfl
    refine ⟨fun folder hf => ?_, fun p t _ ht => ?_, ⟨rfl, by decide⟩⟩
    · obtain rfl : folder = "/o" := by simpa [Generation.Setup.folders, beside, Generation.inner] using hf
      exact ⟨["o"], by cbv⟩
    · have := Disk.mem_entries_of_link ht
      simp [he] at this
  outside := by
    rintro ⟨folder, hf, place, hplace, hbelow⟩
    obtain rfl : folder = "/o" := by simpa [Generation.Setup.folders, beside, Generation.inner] using hf
    have ho : besideDisk.resolve "/o" = .ok [("o" : Text)] := by cbv
    obtain rfl := Except.ok.inj (ho.symm.trans hplace)
    exact absurd hbelow (by decide)

/-- The report of a page on which the rule is not in use. -/
def unusedReport : Report := Table.ofList [("/a.css", [(".y", none)])]

/-- The rule stays used, whatever is reported and generated. -/
theorem runAll_continues_beside : ∃ l,
    Ledger.load "/l" (runAll beside besideDisk [.save Faults.none unusedReport,
      .generate Faults.none ⟨2025, 1, 31, 12, 0, 0⟩ unusedReport]) = .ok l ∧ l.status? "a.css" ".y" = some .used := by
  obtain ⟨l₁, l₂, hl₁, hl₂, h⟩ := runAll_continues apart_beside load_beside []
    [.save Faults.none unusedReport, .generate Faults.none ⟨2025, 1, 31, 12, 0, 0⟩ unusedReport]
  obtain rfl := Except.ok.inj (load_beside.symm.trans hl₁)
  exact ⟨l₂, hl₂, h.used _ _ (by decide)⟩

end Service
end StylePrune
