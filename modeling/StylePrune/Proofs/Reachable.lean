import StylePrune.Proofs.Interleaving
import StylePrune.Proofs.Ledger.WellFormed

/-!
Disks that a service comes to. It starts without a ledger. Requests to save and to generate are served in any order, and
before, between and after them anything may happen to the rest of the disk, to the site above all.
-/

set_option autoImplicit false

namespace StylePrune.Service

open Disk (Inherits)

variable {p : Deployment} {d d' : Disk} {q : Place}

/-- What happens beside the requests does not touch the ledger's file, and it leaves the ledger apart from what
generation writes. -/
inductive Reachable (p : Deployment) (q : Place) : Disk → Prop where
  | start {d : Disk} (apart : Apart p d q) (absent : d.exists? p.ledgerFile = false) : Reachable p q d
  | request {d : Disk} (h : Reachable p q d) (c : Call) : Reachable p q (c.run p d)
  | edit {d d' : Disk} (h : Reachable p q d) (apart : Apart p d' q)
      (untouched : d'.entryAt? p.ledgerFile = d.entryAt? p.ledgerFile) : Reachable p q d'

/-- A well-formed ledger is in its place, or nothing that would keep one from being put there. -/
structure Sound (p : Deployment) (q : Place) (d : Disk) : Prop where
  apart : ∃ d₀, Apart p d₀ q ∧ Inherits d₀ d
  seat : Ledger.Seat d p.ledgerFile q
  ledger : ∃ l, Ledger.load p.ledgerFile d = .ok l ∧ l.WellFormed

theorem Sound.untouched (h : Sound p q d) (he : d'.entryAt? p.ledgerFile = d.entryAt? p.ledgerFile) :
    ∃ l, Ledger.load p.ledgerFile d' = .ok l ∧ l.WellFormed := by
  rw [Ledger.load_eq, he, ← Ledger.load_eq]
  exact h.ledger

theorem Sound.merged (h : Sound p q d) {w : Faults} {r : Report} (hm : HoldsMerged p w r d d') :
    ∃ l, Ledger.load p.ledgerFile d' = .ok l ∧ l.WellFormed := by
  obtain ⟨l, hl, hwell⟩ := h.ledger
  obtain ⟨l', m, content, hl', hmerge, hc, he⟩ := hm
  obtain rfl := Except.ok.inj (hl.symm.trans hl')
  exact ⟨m.ledger, Ledger.load_of_encode? hc he, hwell.merge hmerge⟩

/-- A request leaves the file alone or merges its report. -/
theorem Sound.request (h : Sound p q d) (c : Call) : Sound p q (c.run p d) := by
  obtain ⟨d₀, ha, h₀⟩ := h.apart
  cases c with
  | save w r =>
    obtain ⟨hi, hseat, ⟨-, he⟩ | ⟨-, hm⟩⟩ := save_cases h.seat (Prod.eta (save p w r d)).symm
    · exact ⟨⟨d₀, ha, h₀.trans hi⟩, hseat, h.untouched he⟩
    · exact ⟨⟨d₀, ha, h₀.trans hi⟩, hseat, h.merged hm⟩
  | generate w m r =>
    obtain ⟨hi, hseat, ⟨-, he⟩ | ⟨-, hm⟩⟩ := generate_cases ha h₀ h.seat m.descends_stamp
      (Prod.eta (generate p w m.stamp r d)).symm
    · exact ⟨⟨d₀, ha, h₀.trans hi⟩, hseat, h.untouched he⟩
    · exact ⟨⟨d₀, ha, h₀.trans hi⟩, hseat, h.merged hm⟩

theorem Reachable.sound (h : Reachable p q d) : Sound p q d := by
  induction h with
  | start apart absent =>
    exact ⟨⟨_, apart, Inherits.refl _⟩, apart.seat, Table.empty, by simp [Ledger.load, absent], Ledger.wellFormed_empty⟩
  | request _ c ih => exact ih.request c
  | edit _ apart untouched ih => exact ⟨⟨_, apart, Inherits.refl _⟩, apart.seat, ih.untouched untouched⟩

/-- Wherever the service comes to, its ledger can be loaded. Its files have keys of references, its selectors are in
normal form, and one that it holds to be unused may be deleted, so it is neither critical nor always kept. -/
theorem Reachable.ledger_wellFormed (h : Reachable p q d) : ∃ l, Ledger.load p.ledgerFile d = .ok l ∧
    (∀ file, (l.get? file).isSome → ∃ reference, SourceKey.ofReference reference = .ok file) ∧
    ∀ file selector v, l.status? file selector = some v →
      selector ≠ [] ∧ Selector.normalize selector = selector ∧ (v = .unused → Selector.isEligible selector = true ∧
        Selector.isCritical selector = false ∧ Selector.isAlwaysKept selector = false) := by
  obtain ⟨l, hl, hwell⟩ := h.sound.ledger
  refine ⟨l, hl, hwell.key, fun file selector v hv => ?_⟩
  obtain ⟨st, hf, hst⟩ := Option.bind_eq_some_iff.1 hv
  obtain ⟨hn, hnormal⟩ := (hwell.entry file st hf).normal selector (by simp [hst])
  refine ⟨hn, hnormal, ?_⟩
  rintro rfl
  exact hwell.unused hv

/-- The output of the small site is removed, and then a page is reported on which the rule is not in use. -/
theorem ledger_wellFormed_beside : ∃ d, Reachable beside ["l"] d ∧
    Ledger.load "/l" d = .ok (ledgerOf (some .unused)) ∧ Selector.isEligible ".y" = true := by
  have apart (a : Bytes) : Apart beside (inUse none a []) ["l"] :=
    ⟨(separate_beside a []).seat, (separate_beside a []).confined, (separate_beside a []).ledger⟩
  have hstart : Reachable beside ["l"] (inUse none (bytesLeft .used) []) := .start (apart _) (by cbv)
  have hedit : Reachable beside ["l"] (inUse none [] []) := .edit hstart (apart []) (by cbv)
  have hsaved := hedit.request (.save Faults.none (reportOf true))
  have hdisk : Call.run beside (inUse none [] []) (.save Faults.none (reportOf true)) =
      inUse (some (storedOf .unused)) [] [] := by
    rw [Call.run, save_snd]
    exact congrArg Prod.snd (commit_inUse [] [] none true)
  rw [hdisk] at hsaved
  have hload : Ledger.load "/l" (inUse (some (storedOf .unused)) [] []) = .ok (ledgerOf (some .unused)) :=
    load_inUse [] [] (some .unused)
  obtain ⟨l, hl, -, hall⟩ := hsaved.ledger_wellFormed
  obtain rfl := Except.ok.inj (hload.symm.trans hl)
  exact ⟨_, hsaved, hload, ((hall "a.css" ".y" .unused rfl).2.2 rfl).1⟩

end StylePrune.Service
