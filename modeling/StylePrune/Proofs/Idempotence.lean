import StylePrune.Proofs.Interleaving

/-!
Generating twice in a row. The second merge says nothing that the ledger does not know of the sheets by then, so the
second generation cleans every file to the same text as the first one.
-/

set_option autoImplicit false

namespace StylePrune

namespace Generation

variable {u : Setup} {w : Faults} {d : Disk} {file : Text} {st st' : Statuses} {l : Ledger} {n n' : Ledger.Merge}
variable {r : Report}

theorem clean_congr {css : Text} (h : ∀ sheet, Css.Sheet.parse css = .ok sheet →
    ∀ a ∈ sheet.uses.map Prod.fst, st'.get? a = st.get? a) : clean st' css = clean st css := by
  cases hp : Css.Sheet.parse css with
  | error e => rw [clean, clean, hp]; rfl
  | ok sheet => rw [clean_of_parse hp, clean_of_parse hp, Css.Sheet.prune_congr (h sheet hp)]

theorem prepare_eq_of_clean (h : ∀ css size, Site.read u.site w.locked d file = .ok (css, size) →
    clean st' css = clean st css) : prepare u w d file st' = prepare u w d file st := by
  unfold prepare
  cases hr : Site.read u.site w.locked d file with
  | error e =>
    cases e with
    | badName b => rfl
    | unavailable x => rfl
  | ok r => simp only [h r.1 r.2 hr]

/-- Merging a report again changes nothing for the sheets. -/
theorem cleansAlike_of_merge (hc : Ledger.Complete u.site w.locked d l)
    (h : Ledger.merge u.site w.locked d l r = (n, none))
    (h' : Ledger.merge u.site w.locked d n.ledger r = (n', none)) : CleansAlike u w d n.ledger n'.ledger := by
  obtain ⟨-, hkeys, hst⟩ := Ledger.merge_again hc h h'
  refine ⟨hkeys, fun file st st' hf hf' => prepare_eq_of_clean fun css size hr => clean_congr fun sheet hp => ?_⟩
  exact hst file st st' css size sheet hf hf' hr hp

end Generation

namespace Service

open Disk (Evolves)

variable {p : Deployment} {w : Faults} {r : Report} {d d₀ d' : Disk} {dir : Place} {name : Text}
variable {locked : Text → Bool}

theorem generate_eq_ok {moment : Text} {a : Merged × Generation.Result} (h : generate p w moment r d = (.ok a, d')) :
    ∃ l d₁, commit p w r d = (.ok (a.1, l), d₁) ∧ Generation.run p.generation w moment l d₁ = (.ok a.2, d') := by
  obtain ⟨k, d₁, hc, h⟩ := Disk.Action.bind_eq_ok h
  obtain ⟨res, d₂, hr, h⟩ := Disk.Action.bind_eq_ok h
  obtain ⟨ha, rfl⟩ := Prod.mk.inj h
  obtain rfl := Except.ok.inj ha
  exact ⟨k.2, d₁, hc, Disk.Action.mapError_eq_ok hr⟩

/-- The surroundings lock just these files. -/
def Call.Locks (locked : Text → Bool) : Call → Prop
  | save w _ | generate w _ _ => w.locked = locked

theorem Call.locks_events {cs : List Call} (h : ∀ c ∈ cs, c.Locks locked) :
    ∀ e ∈ cs.flatMap Call.events, e.Locks locked := by
  intro e he
  obtain ⟨c, hc, he⟩ := List.mem_flatMap.1 he
  have hl := h c hc
  cases c with
  | save w r =>
    rw [List.mem_singleton.1 he]
    exact hl
  | generate w m r =>
    rcases List.mem_cons.1 he with rfl | he
    · exact hl
    · rw [List.mem_singleton.1 he]
      trivial

namespace Separate

variable (hs : Separate p d₀ dir name)
include hs

/-- A ledger that grew from none knows every selector of the sheets of its files. -/
theorem complete_after {b : Busy} (hb : b.Sound p d₀ dir name locked)
    (hc : ∀ l, Ledger.load p.ledgerFile b.disk = .ok l → Ledger.Complete p.generation.site locked d₀ l)
    {es : List Event} (hes : ∀ e ∈ es, e.Locks locked) : ∀ l, Ledger.load p.ledgerFile (b.after p es).disk = .ok l →
      Ledger.Complete p.generation.site locked d₀ l := by
  refine (hs.after_keeps (I := fun b => ∀ l, Ledger.load p.ledgerFile b.disk = .ok l →
    Ledger.Complete p.generation.site locked d₀ l) (fun b e b' _ ht hc l hl => ?_) hb hc hes).2
  cases ht with
  | idle _ ledger _ _ => exact hc l (ledger ▸ hl)
  | merge _ before merged ledger _ _ _ =>
    obtain rfl := Except.ok.inj (ledger.symm.trans hl)
    exact (hc _ before).merge merged
  | generate _ _ ledger _ => exact hc l (ledger ▸ hl)

end Separate

theorem exists_generate_inUse (a b : Bytes) (o : Option Status) (listed : Bool) (moment : Text) : ∃ res,
    generate beside Faults.none moment (reportOf listed) (inUse (o.map storedOf) a b) = (.ok (⟨["a.css"], []⟩, res),
      inUse (some (storedOf (turned o listed))) (bytesLeft (turned o listed)) (bytesLeft (turned o listed))) := by
  obtain ⟨res, hr⟩ := exists_run_inUse a b (turned o listed) (some (storedOf (turned o listed))) moment
  have hrun := Disk.Action.mapError_of_ok hr Error.run
  rw [generate, Disk.Action.bind_of_ok (commit_inUse a b o listed)]
  exact ⟨res, Disk.Action.bind_of_ok hrun _⟩

end Service
end StylePrune
