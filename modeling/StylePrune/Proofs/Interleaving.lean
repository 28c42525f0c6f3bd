import StylePrune.Proofs.Coverage
import StylePrune.Proofs.Ledger.Remerging

/-!
Requests that overlap. A request to generate takes two turns: under the ledger's lock it merges its report, and later,
without the lock, it generates from the ledger as it was then. Turns of other requests may come in between.
-/

set_option autoImplicit false

namespace StylePrune.Service

open Disk (Evolves Straight anywhere)
open Generation (inner innerDisk)

/-- A generation that is still to come, with the ledger that it goes by. -/
structure Job where
  faults : Faults
  moment : Backup.Moment
  ledger : Ledger

/-- The disk while requests are under way, and the generations still to come, oldest first. -/
structure Busy where
  disk : Disk
  jobs : List Job

/-- A turn of a request: it is to save and does so, it is to generate and merges, or it has merged and generates. -/
inductive Event where
  | save (w : Faults) (r : Report)
  | commit (w : Faults) (m : Backup.Moment) (r : Report)
  | rewrite (i : Nat)

/-- A request that fails when it merges does not generate. -/
def Busy.next (p : Deployment) (b : Busy) : Event → Busy
  | .save w r => { b with disk := (Service.save p w r b.disk).2 }
  | .commit w m r => match Service.commit p w r b.disk with
    | (.ok k, d) => ⟨d, b.jobs ++ [⟨w, m, k.2⟩]⟩
    | (.error _, d) => { b with disk := d }
  | .rewrite i => match b.jobs[i]? with
    | none => b
    | some j => ⟨(Generation.run p.generation j.faults j.moment.stamp j.ledger b.disk).2, b.jobs.eraseIdx i⟩

def Busy.after (p : Deployment) (b : Busy) (es : List Event) : Busy := es.foldl (Busy.next p) b

variable {p : Deployment} {w : Faults} {r : Report} {d d₀ d' : Disk} {dir q : Place} {name : Text} {b b' : Busy}
variable {locked : Text → Bool}

theorem save_snd (p : Deployment) (w : Faults) (r : Report) (d : Disk) : (save p w r d).2 = (commit p w r d).2 := by
  cases hc : commit p w r d with
  | mk res d' =>
    cases res with
    | ok k => rw [save, Disk.Action.bind_of_ok hc]; rfl
    | error x => rw [save, Disk.Action.bind_of_error hc]

theorem Busy.after_append (p : Deployment) (b : Busy) (es fs : List Event) :
    b.after p (es ++ fs) = (b.after p es).after p fs := List.foldl_append

theorem Busy.disk_next_commit (p : Deployment) (b : Busy) (w : Faults) (m : Backup.Moment) (r : Report) :
    (b.next p (.commit w m r)).disk = (Service.commit p w r b.disk).2 := by
  rw [next]
  cases Service.commit p w r b.disk with
  | mk res d =>
    cases res with
    | ok k => rfl
    | error x => rfl

/-! ## One request after the other -/

/-- The turns of a request that is left to itself. -/
def Call.events : Call → List Event
  | .save w r => [.save w r]
  | .generate w m r => [.commit w m r, .rewrite 0]

theorem Busy.after_events (p : Deployment) (d : Disk) (c : Call) : Busy.after p ⟨d, []⟩ c.events = ⟨c.run p d, []⟩ := by
  cases c with
  | save w r => rfl
  | generate w m r =>
    simp only [Busy.after, Call.events, List.foldl_cons, List.foldl_nil, Busy.next, Call.run, generate]
    cases hc : commit p w r d with
    | mk res d₁ =>
      cases res with
      | error x => rw [Disk.Action.bind_of_error hc]; rfl
      | ok k =>
        rw [Disk.Action.bind_of_ok hc]
        cases hr : Generation.run p.generation w m.stamp k.2 d₁ with
        | mk res d₂ =>
          cases res with
          | ok a => rw [Disk.Action.bind_of_ok (Disk.Action.mapError_of_ok hr _)]; simp [hr]; rfl
          | error x => rw [Disk.Action.bind_of_error (Disk.Action.mapError_of_error hr _)]; simp [hr]

/-- Requests of which each waits for the one before are requests whose turns follow each other. -/
theorem Busy.after_flatMap (p : Deployment) (d : Disk) (cs : List Call) :
    Busy.after p ⟨d, []⟩ (cs.flatMap Call.events) = ⟨runAll p d cs, []⟩ := by
  induction cs generalizing d with
  | nil => rfl
  | cons c cs ih => rw [List.flatMap_cons, after_append, after_events, ih]; rfl

/-! ## Turns -/

/-- The surroundings lock just these files. -/
def Event.Locks (locked : Text → Bool) : Event → Prop
  | .save w _ | .commit w _ _ => w.locked = locked
  | .rewrite _ => True

/-- What holds of a disk in use: requests have done no more than they may, the ledger has its place, and if a
generation is still to come it has a file there. -/
structure Busy.Sound (p : Deployment) (d₀ : Disk) (dir : Place) (name : Text) (locked : Text → Bool) (b : Busy) :
    Prop where
  moves : Moves p d₀ dir name d₀ b.disk
  seat : Ledger.Seat b.disk p.ledgerFile (dir ++ [name])
  stored : b.jobs ≠ [] → ∃ content, b.disk.entryAt? p.ledgerFile = some (.file content 0)
  locked : ∀ j ∈ b.jobs, j.faults.locked = locked

/-- The turn merges a report, and that does not fail. -/
def Event.Commits (p : Deployment) (b : Busy) : Event → Prop
  | .save w r | .commit w _ r => ∃ k, (Service.commit p w r b.disk).1 = .ok k
  | .rewrite _ => False

/-- What a turn does: nothing that matters, or it merges a report, after which a generation may be to come, or it
generates. -/
inductive Busy.Turn (p : Deployment) (d₀ : Disk) (dir : Place) (name : Text) (locked : Text → Bool) (e : Event)
    (b b' : Busy) : Prop
  | idle (jobs : b'.jobs = b.jobs) (ledger : Ledger.load p.ledgerFile b'.disk = Ledger.load p.ledgerFile b.disk)
      (moves : Moves p d₀ dir name b.disk b'.disk) (output : SameOutput p d₀ b.disk b'.disk)
  | merge {l : Ledger} {r : Report} {k : Ledger.Merge} (commits : e.Commits p b) (before : Ledger.load p.ledgerFile b.disk = .ok l)
      (merged : Ledger.merge p.generation.site locked d₀ l r = (k, none))
      (ledger : Ledger.load p.ledgerFile b'.disk = .ok k.ledger)
      (jobs : b'.jobs = b.jobs ∨ ∃ w m, b'.jobs = b.jobs ++ [⟨w, m, k.ledger⟩])
      (moves : Moves p d₀ dir name b.disk b'.disk) (output : SameOutput p d₀ b.disk b'.disk)
  | generate {j : Job} (mem : j ∈ b.jobs) (jobs : b'.jobs.Sublist b.jobs)
      (ledger : Ledger.load p.ledgerFile b'.disk = Ledger.load p.ledgerFile b.disk)
      (disk : b'.disk = (Generation.run p.generation j.faults j.moment.stamp j.ledger b.disk).2)

/-- The ledger on disk claims all output, and generations still to come know no files but its own. -/
def Busy.Covered (p : Deployment) (d₀ : Disk) (locked : Text → Bool) (b : Busy) : Prop := ∀ l,
  Ledger.load p.ledgerFile b.disk = .ok l → Service.Covered p locked d₀ l b.disk ∧
    ∀ j ∈ b.jobs, ∀ file, (j.ledger.get? file).isSome → (l.get? file).isSome

theorem Busy.covered_start (p : Deployment) (d₀ : Disk) (locked : Text → Bool) : Busy.Covered p d₀ locked ⟨d₀, []⟩ :=
  fun _ _ => ⟨fun _ _ => .inl rfl, List.forall_mem_nil _⟩

namespace Separate

variable (hs : Separate p d₀ dir name)
include hs

/-- A turn that merges a report, after which the generation that it is for may be to come. -/
theorem turn_commit {res : Except Error (Merged × Ledger)} {js : List Job} {e : Event}
    (hb : b.Sound p d₀ dir name locked) (hw : w.locked = locked) (hc : commit p w r b.disk = (res, d'))
    (he : ∀ k, res = .ok k → e.Commits p b) (hjs : js = b.jobs ∨ ∃ k m, res = .ok k ∧ js = b.jobs ++ [⟨w, m, k.2⟩]) :
    Busy.Sound p d₀ dir name locked ⟨d', js⟩ ∧ Busy.Turn p d₀ dir name locked e b ⟨d', js⟩ := by
  have hm : Moves p d₀ dir name b.disk d' := by
    have := hs.commit_moves hb.moves w r
    rwa [hc] at this
  have ho : SameOutput p d₀ b.disk d' := by
    intro q hq
    have := hs.content?_commit hb.moves w r hq.room
    rwa [hc] at this
  obtain ⟨hseat, ⟨⟨x, rfl⟩, hentry⟩ | ⟨l, k, content, hl, hk, rfl, hl', hentry⟩⟩ := hs.commit_cases hb.moves hb.seat hc
  · have hj : js = b.jobs := hjs.resolve_right fun ⟨_, _, he, _⟩ => by cases he
    subst hj
    refine ⟨⟨hb.moves.trans hm, hseat, fun hn => ?_, hb.locked⟩, .idle rfl ?_ hm ho⟩
    · rw [hentry]
      exact hb.stored hn
    · rw [Ledger.load_eq, Ledger.load_eq, hentry]
  · have hj : js = b.jobs ∨ ∃ m, js = b.jobs ++ [⟨w, m, k.ledger⟩] := hjs.imp_right fun ⟨_, m, he, hj⟩ =>
      ⟨m, by rw [hj, ← Except.ok.inj he]⟩
    refine ⟨⟨hb.moves.trans hm, hseat, fun _ => ⟨content, hentry⟩, fun j hjm => ?_⟩,
      .merge (he _ rfl) hl (hw ▸ hk) hl' (hj.imp_right fun ⟨m, hj⟩ => ⟨w, m, hj⟩) hm ho⟩
    rcases hj with rfl | ⟨m, rfl⟩
    · exact hb.locked j hjm
    · rcases List.mem_append.1 hjm with hjm | hjm
      · exact hb.locked j hjm
      · rw [List.mem_singleton.1 hjm, hw]

theorem turn_next (hb : b.Sound p d₀ dir name locked) {e : Event} (he : e.Locks locked) :
    (b.next p e).Sound p d₀ dir name locked ∧ Busy.Turn p d₀ dir name locked e b (b.next p e) := by
  cases e with
  | save w r =>
    have hnext : b.next p (.save w r) = ⟨(commit p w r b.disk).2, b.jobs⟩ := by rw [← save_snd]; rfl
    rw [hnext]
    exact hs.turn_commit hb he (Prod.eta _).symm (fun k hk => ⟨k, hk⟩) (.inl rfl)
  | commit w m r =>
    rw [Busy.next]
    cases hc : commit p w r b.disk with
    | mk res d' =>
      have hcommits : ∀ k, res = .ok k → Event.Commits p b (.commit w m r) := fun k hk =>
        ⟨k, (congrArg Prod.fst hc).trans hk⟩
      cases res with
      | ok k => exact hs.turn_commit hb he hc hcommits (.inr ⟨k, m, rfl, rfl⟩)
      | error x => exact hs.turn_commit hb he hc hcommits (.inl rfl)
  | rewrite i =>
    rw [Busy.next]
    cases hj : b.jobs[i]? with
    | none => exact ⟨hb, .idle rfl rfl (Evolves.refl _ _ _) fun _ _ => rfl⟩
    | some j =>
      have hmem : j ∈ b.jobs := List.mem_of_getElem? hj
      have hsub : (b.jobs.eraseIdx i).Sublist b.jobs := List.eraseIdx_sublist b.jobs i
      obtain ⟨content, hcontent⟩ := hb.stored (List.ne_nil_of_mem hmem)
      obtain ⟨hseat, hstored⟩ := hs.run_stored hb.moves j.faults j.moment j.ledger hb.seat hcontent
      refine ⟨⟨hb.moves.trans (hs.run_moves hb.moves j.faults j.moment j.ledger), hseat, fun _ => ⟨content, hstored⟩,
        fun j' hj' => hb.locked j' (hsub.subset hj')⟩, .generate hmem hsub ?_ rfl⟩
      rw [Ledger.load_eq, Ledger.load_eq, hstored, hcontent]

theorem sound_start (locked : Text → Bool) : Busy.Sound p d₀ dir name locked ⟨d₀, []⟩ :=
  ⟨Evolves.refl _ _ d₀, hs.seat, fun h => absurd rfl h, List.forall_mem_nil _⟩

/-- What every turn keeps holds however turns follow each other. -/
theorem after_keeps {I : Busy → Prop} (hI : ∀ b e b', b.Sound p d₀ dir name locked →
    Busy.Turn p d₀ dir name locked e b b' → I b → I b') (hb : b.Sound p d₀ dir name locked) (hi : I b)
    {es : List Event} (hes : ∀ e ∈ es, e.Locks locked) :
    (b.after p es).Sound p d₀ dir name locked ∧ I (b.after p es) := by
  induction es generalizing b with
  | nil => exact ⟨hb, hi⟩
  | cons e es ih =>
    obtain ⟨he, hes⟩ := List.forall_mem_cons.1 hes
    obtain ⟨hsound, hturn⟩ := hs.turn_next hb he
    exact ih hsound (hI _ _ _ hb hturn hi) hes

/-- As long as no report is merged the ledger stays as it is. -/
theorem load_after (hb : b.Sound p d₀ dir name locked) {es : List Event} (hes : ∀ e ∈ es, e.Locks locked)
    (hn : ∀ fs e gs, es = fs ++ e :: gs → ¬ e.Commits p (b.after p fs)) :
    Ledger.load p.ledgerFile (b.after p es).disk = Ledger.load p.ledgerFile b.disk := by
  induction es generalizing b with
  | nil => rfl
  | cons e es ih =>
    obtain ⟨he, hes⟩ := List.forall_mem_cons.1 hes
    obtain ⟨hsound, hturn⟩ := hs.turn_next hb he
    have hnext : Ledger.load p.ledgerFile (b.next p e).disk = Ledger.load p.ledgerFile b.disk := by
      cases hturn with
      | idle _ ledger _ _ => exact ledger
      | merge commits _ _ _ _ _ _ => exact absurd commits (hn [] e es rfl)
      | generate _ _ ledger _ => exact ledger
    rw [← hnext]
    exact ih hsound hes fun fs e' gs hsplit => hn (e :: fs) e' gs (by rw [hsplit, List.cons_append])

theorem covered_after (hb : b.Sound p d₀ dir name locked) (hc : b.Covered p d₀ locked) {es : List Event}
    (hes : ∀ e ∈ es, e.Locks locked) :
    (b.after p es).Sound p d₀ dir name locked ∧ (b.after p es).Covered p d₀ locked := by
  refine hs.after_keeps (fun b e b' hb ht hc l hl => ?_) hb hc hes
  cases ht with
  | idle jobs ledger moves output =>
    rw [ledger] at hl
    obtain ⟨hcover, hjobs⟩ := hc l hl
    exact ⟨hs.covered_moves hb.moves moves output (fun _ => id) hcover, jobs ▸ hjobs⟩
  | @merge l₀ r k _ before merged ledger jobs moves output =>
    obtain rfl := Except.ok.inj (ledger.symm.trans hl)
    obtain ⟨hcover, hjobs⟩ := hc l₀ before
    have hk : ∀ file, (l₀.get? file).isSome → (k.ledger.get? file).isSome := fun file hf =>
      Ledger.isSome_get?_merge merged hf
    refine ⟨hs.covered_moves hb.moves moves output hk hcover, fun j hj file hf => ?_⟩
    have hold (hj : j ∈ b.jobs) : (k.ledger.get? file).isSome := hk file (hjobs j hj file hf)
    rcases jobs with hjs | ⟨w, m, hjs⟩
    · exact hold (hjs ▸ hj)
    · rw [hjs] at hj
      rcases List.mem_append.1 hj with hj | hj
      · exact hold hj
      · rwa [List.mem_singleton.1 hj] at hf
  | @generate j mem jobs ledger disk =>
    rw [ledger] at hl
    obtain ⟨hcover, hjobs⟩ := hc l hl
    refine ⟨?_, fun j' hj' => hjobs j' (jobs.subset hj')⟩
    rw [disk]
    exact hs.covered_run (hb.locked j mem) hb.moves (hjobs j mem) hcover j.moment

end Separate

/-! ## The small site in use -/

/-- What stands beside the small site: the ledger's file, if there is one, its lock and the output. -/
def inUse (ledger : Option Bytes) (sheet bundle : Bytes) : Disk := innerDisk
  (([(["l.lock"], .file [] 0), (["o"], .directory), (["o", "a.css"], .file sheet 0), (["o", "b"], .file bundle 0)] :
    List (Place × Entry)) ++ (ledger.map fun bs => ((["l"] : Place), Entry.file bs 0)).toList)

def onlyRule (v : Status) : Statuses := Table.ofList [(".y", v)]

/-- What the ledger says of the rule, if it knows it. -/
def ledgerOf : Option Status → Ledger
  | none => Table.empty
  | some v => Table.ofList [("a.css", onlyRule v)]

def listing (listed : Bool) : List Css.Use := if listed then [(".y", none)] else []

/-- A report on the file that lists its rule as not in use, or does not. -/
def reportOf (listed : Bool) : Report := Table.ofList [("a.css", listing listed)]

/-- What becomes of the rule's status. -/
def turned (v : Option Status) (listed : Bool) : Status := if listed then v.getD .unused else .used

def storedOf (v : Status) : Bytes := (Utf8.encode? (ledgerOf (some v)).toJson.render).getD []

def leftOf (v : Status) : Text := match v with | .used => ".y\x7b\x7d" | .unused => []

def bytesLeft (v : Status) : Bytes := match v with | .used => ".y\x7b\x7d".toUTF8.toList | .unused => []

variable (a b : Bytes) (v : Status) (k : Option Bytes)

theorem entries_inUse : (inUse k a b).entries.entries = [((["s"] : Place), .directory),
    (["s", "a.css"], .file ".y\x7b\x7d".toUTF8.toList 0), (["l.lock"], .file [] 0), (["o"], .directory),
    (["o", "a.css"], .file a 0), (["o", "b"], .file b 0)] ++
    (k.map fun bs => ((["l"] : Place), Entry.file bs 0)).toList := by
  cases k <;> rfl

theorem unlinked_inUse : Disk.Unlinked (inUse k a b) := by
  refine Disk.unlinked_of_entries ?_
  rw [entries_inUse]
  cases k <;> simp

theorem straight_inUse {path n : Text} (h : Text.splitOn '/' path = [[], n]) (hn : Disk.isOwnName n = true) :
    Straight (inUse k a b) path [] n :=
  ⟨⟨[], [[]], [], h, by simp; decide, .here _ _, rfl, fun q t _ _ => unlinked_inUse a b k q t⟩, hn⟩

theorem read_inUse : Site.read inner.site (fun _ => false) (inUse k a b) "a.css" = .ok (".y\x7b\x7d", 4) :=
  Generation.read_of_unlinked (unlinked_inUse a b k) (by decide) (by decide) (by decide) (by cases k <;> rfl)
    (by cases k <;> rfl)

theorem encode?_storedOf : Utf8.encode? (ledgerOf (some v)).toJson.render = some (storedOf v) := by
  cases v <;> rfl

theorem encode?_leftOf : Utf8.encode? (leftOf v) = some (bytesLeft v) := by cases v <;> cbv

theorem witness_onlyRule (listed : Bool) :
    Statuses.witness (Ledger.reported (listing listed)) (onlyRule v) = onlyRule (turned (some v) listed) := by
  cases v <;> cases listed <;> rfl

theorem merge_inUse (o : Option Status) (listed : Bool) :
    Ledger.merge inner.site (fun _ => false) (inUse k a b) (ledgerOf o) (reportOf listed) =
      (⟨ledgerOf (some (turned o listed)), ["a.css"], []⟩, none) := by
  have hkey : SourceKey.ofReference "a.css" = .ok "a.css" := rfl
  have hentries : (reportOf listed).entries = [(("a.css" : Text), listing listed)] := rfl
  cases o with
  | none =>
    obtain ⟨sheet, hp, hu⟩ := Css.exists_of_map_eq_ok Css.Sheet.selectors_small
    have hfirst := Ledger.firstStatuses_of_read (read_inUse a b k) hp
    rw [Css.Sheet.map_fst_uses, List.flatMap_def, hu] at hfirst
    have hw : Statuses.witness (Ledger.reported (listing listed)) (Statuses.enterAll Table.empty [(".y" : Text)]) =
        onlyRule (turned none listed) := by cases listed <;> rfl
    simp only [Ledger.merge, hentries, Ledger.Merge.run, Ledger.Merge.step, Ledger.Merge.start, hkey, ledgerOf,
      Table.get?_empty, Option.elim_none, hfirst, List.flatten_cons, List.flatten_nil, List.append_nil, hw]
    rfl
  | some v =>
    have hget : (ledgerOf (some v)).get? "a.css" = some (onlyRule v) := rfl
    simp only [Ledger.merge, hentries, Ledger.Merge.run, Ledger.Merge.step, Ledger.Merge.start, hkey, hget,
      Option.elim_some, witness_onlyRule]
    rfl

theorem target_ledger : (inUse k a b).target "/l" = .ok [("l" : Text)] :=
  have hs : Text.splitOn '/' "/l" = [[]] ++ [("l" : Text)] := rfl
  (Disk.target_eq_ok_iff hs).2 ⟨[], .stay rfl (.inl rfl) (.here _ _), rfl, by decide, by decide, rfl⟩

theorem leads_output (links : Nat) : Disk.Leads (inUse k a b) links [] [[], ("o" : Text)] [("o" : Text)] :=
  have he : Disk.entry? (inUse k a b) ["o"] = some .directory := by cases k <;> rfl
  .stay rfl (.inl rfl) (.down rfl (by decide) (by decide) he nofun (.here _ _))

theorem laid_output {path n : Text} {c : Bytes} (hw : Disk.wayTo path = [("o" : Text)])
    (hs : Text.splitOn '/' path = [[], "o"] ++ [n]) (hn : Disk.isOwnName n = true) (hsize : Text.utf8Size n ≤ Disk.maxName)
    (he : Disk.entry? (inUse k a b) ["o", n] = some (.file c 0)) : Disk.Laid (inUse k a b) path ["o", n] where
  way := by
    rw [hw]
    exact Disk.isDirectory_iff.2 ⟨["o"], Disk.follow_of_leads (leads_output a b k _), by cases k <;> rfl⟩
  target := (Disk.target_eq_ok_iff hs).2 ⟨["o"], leads_output a b k _, by cases k <;> rfl, hn, hsize, rfl⟩
  isFile := ⟨c, 0, he⟩

theorem lock_inUse : Ledger.lock "/l" (inUse k a b) = (.ok (), inUse k a b) := by cases k <;> cbv

theorem replaceFile_ledger {text : Text} {bs : Bytes} (h : Utf8.encode? text = some bs) :
    Disk.replaceFile "/l" text false (inUse k a b) = (.ok (), inUse (some bs) a b) := by
  have hw : Disk.wayTo "/l" = [] := rfl
  have hm : Disk.makeDirectories (Disk.wayTo "/l") (inUse k a b) = (.ok (), inUse k a b) := by
    rw [hw, Disk.makeDirectories, dif_pos rfl]
  have hn : Disk.entry? (inUse k a b) ["l"] ≠ some .directory := by
    rw [show Disk.entry? (inUse k a b) ["l"] = k.map fun bs => Entry.file bs 0 by cases k <;> rfl]
    cases k <;> simp
  rw [Disk.replaceFile_of_makeDirectories hm, Disk.putFile_of_target h (target_ledger a b k) hn]
  cases k <;> rfl

theorem load_inUse (o : Option Status) : Ledger.load "/l" (inUse (o.map storedOf) a b) = .ok (ledgerOf o) := by
  cases o with
  | none =>
    have hl : Straight (inUse none a b) "/l" [] "l" := straight_inUse a b none rfl (by decide)
    have he : (inUse none a b).entryAt? "/l" = none := hl.entryAt?_eq_none rfl
    rw [Option.map_none, Ledger.load_eq, he]
    rfl
  | some v =>
    have hway : Disk.Leads (inUse (some (storedOf v)) a b) Disk.maxLinks [] [[], "l"] ["l"] :=
      .stay rfl (.inl rfl) (.down rfl (by decide) (by decide) rfl nofun (.here _ _))
    exact Ledger.load_of_encode? (encode?_storedOf v)
      (Disk.entryAt?_eq_some_iff.2 ⟨["l"], Disk.follow_of_leads hway, rfl⟩)

theorem commit_inUse (o : Option Status) (listed : Bool) :
    commit beside Faults.none (reportOf listed) (inUse (o.map storedOf) a b) =
      (.ok (⟨["a.css"], []⟩, ledgerOf (some (turned o listed))), inUse (some (storedOf (turned o listed))) a b) := by
  rw [commit]
  refine Ledger.transaction_of_ok (lock_inUse a b _) (load_inUse a b o) ?_ (replaceFile_ledger a b _ (encode?_storedOf _))
  have hm : Ledger.merge beside.generation.site Faults.none.locked (inUse (o.map storedOf) a b) (ledgerOf o)
      (reportOf listed) = _ := merge_inUse ..
  simp only [hm]

theorem prepare_inUse : Generation.prepare inner Faults.none (inUse k a b) "a.css" (onlyRule v) =
    .ok (⟨"a.css", leftOf v, 4, if v = .used then 0 else 1⟩, "/o/a.css") := by
  have hs : (inUse k a b).resolve "/s" = .ok [("s" : Text)] := (unlinked_inUse a b k).resolve (by decide)
  have hf : (inUse k a b).resolve (Path.join "/s" "a.css") = .ok [("s" : Text), "a.css"] :=
    (unlinked_inUse a b k).resolve (by decide)
  have hp := Generation.prepare_inner (v := v) (read_inUse a b k) (Generation.destination_inner hs hf)
  cases v <;> exact hp

theorem plain_output : Disk.Plain [("o" : Text)] := by
  intro n hn
  rw [List.mem_singleton.1 hn]
  decide

theorem replaceFile_sheet : Disk.replaceFile "/o/a.css" (leftOf v) false (inUse k a b) =
    (.ok (), inUse k (bytesLeft v) b) := by
  have hw : Disk.wayTo "/o/a.css" = [("o" : Text)] := rfl
  have hl := laid_output a b k hw (n := "a.css") (c := a) rfl (by decide) (by decide) (by cases k <;> rfl)
  rw [hl.replaceFile (hw ▸ plain_output) (encode?_leftOf v)]
  cases k <;> rfl

theorem replaceFile_bundle : Disk.replaceFile inner.bundlePath (leftOf v) false (inUse k a b) =
    (.ok (), inUse k a (bytesLeft v)) := by
  have hw : Disk.wayTo inner.bundlePath = [("o" : Text)] := rfl
  have hl := laid_output a b k hw (n := "b") (c := b) rfl (by decide) (by decide) (by cases k <;> rfl)
  rw [hl.replaceFile (hw ▸ plain_output) (encode?_leftOf v)]
  cases k <;> rfl

theorem bundle_leftOf (n : Nat) : Generation.bundle [⟨"a.css", leftOf v, 4, n⟩] = .ok (leftOf v) := by
  cases v <;> cbv

theorem exists_run_inUse (moment : Text) : ∃ res,
    Generation.run inner Faults.none moment (ledgerOf (some v)) (inUse k a b) =
      (.ok res, inUse k (bytesLeft v) (bytesLeft v)) := by
  have hbackup : Generation.backUp inner moment (ledgerOf (some v)) (inUse k a b) = (.ok [], inUse k a b) := rfl
  have hfiles : Generation.filesOf (ledgerOf (some v)) = [(("a.css" : Text), onlyRule v)] := rfl
  have hnil : Generation.cleanFiles inner Faults.none [] (inUse k (bytesLeft v) b) =
    (.ok ⟨[], []⟩, inUse k (bytesLeft v) b) := rfl
  have hclean := Generation.cleanFiles_cons_of_ok (e := ("a.css", onlyRule v))
    (Generation.cleanFile_of_prepare (prepare_inUse a b v k) (replaceFile_sheet a b v k)) hnil
  have hbundle := Generation.writeBundle_of_ok (w := Faults.none) (List.cons_ne_nil _ _)
    (bundle_leftOf v (if v = .used then 0 else 1)) (replaceFile_bundle (bytesLeft v) b v k)
  rw [Generation.run, Disk.Action.bind_of_ok hbackup, hfiles, Disk.Action.bind_of_ok hclean,
    Disk.Action.bind_of_ok hbundle]
  exact ⟨_, rfl⟩

theorem out_inUse : (inUse k a b).resolve inner.output = .ok [("o" : Text)] := (unlinked_inUse a b k).resolve (by decide)

theorem kept_inUse : Ledger.Kept (inUse k a b) "/l" [] "l" :=
  ⟨straight_inUse a b k rfl (by decide), fun t => unlinked_inUse a b k _ t⟩

theorem below_of_room {q : Place} (h : inner.Room (inUse k a b) q) : [("o" : Text)] <+: q := by
  obtain ⟨folder, hf, place, hplace, hbelow⟩ := h
  obtain rfl : folder = "/o" := List.mem_singleton.1 hf
  obtain rfl := Except.ok.inj ((out_inUse a b k).symm.trans hplace)
  exact List.isPrefixOf_iff_prefix.1 hbelow

theorem separate_beside : Separate beside (inUse none a b) [] "l" where
  rooted := by
    refine Disk.rooted_of_entries ?_
    rw [entries_inUse]
    simp only [Option.map_none, Option.toList_none, List.append_nil, List.forall_mem_cons]
    exact ⟨rfl, rfl, rfl, rfl, rfl, rfl, List.forall_mem_nil _⟩
  kept := kept_inUse a b none
  seat := .free (kept_inUse a b none) rfl rfl
  confined := by
    refine ⟨fun folder hf => ?_, fun q t _ => unlinked_inUse a b none q t, ⟨rfl, by decide⟩⟩
    obtain rfl : folder = "/o" := List.mem_singleton.1 hf
    exact ⟨_, out_inUse a b none⟩
  ledger h := absurd (below_of_room a b none h) (by decide)
  lock h := absurd (below_of_room a b none h) (by decide)
  site := by
    intro root file place hroot _ hbelow
    have hs : (inUse none a b).resolve "/s" = .ok [("s" : Text)] := (unlinked_inUse a b none).resolve (by decide)
    obtain rfl := Except.ok.inj (hs.symm.trans hroot)
    obtain ⟨ns, rfl⟩ := List.isPrefixOf_iff_prefix.1 hbelow
    refine ⟨?_, fun q t _ => unlinked_inUse a b none q t⟩
    rintro (h | h | h)
    · obtain ⟨ms, hms⟩ := below_of_room a b none h
      exact absurd (List.head_eq_of_cons_eq hms) (by decide)
    · exact absurd (List.head_eq_of_cons_eq h) (by decide)
    · exact absurd (List.head_eq_of_cons_eq h) (by decide)
  output := ⟨[], "o", straight_inUse a b none rfl (by decide), out_inUse a b none⟩
  backups folder hf := by cases hf

section

variable (m : Backup.Moment) (js : List Job) (o : Option Status) (listed : Bool)

theorem next_commit_inUse :
    Busy.next beside ⟨inUse (o.map storedOf) a b, js⟩ (.commit Faults.none m (reportOf listed)) =
      ⟨inUse (some (storedOf (turned o listed))) a b, js ++ [⟨Faults.none, m, ledgerOf (some (turned o listed))⟩]⟩ := by
  rw [Busy.next, commit_inUse]

theorem next_rewrite_inUse {i : Nat} (h : js[i]? = some ⟨Faults.none, m, ledgerOf (some v)⟩) :
    Busy.next beside ⟨inUse k a b, js⟩ (.rewrite i) = ⟨inUse k (bytesLeft v) (bytesLeft v), js.eraseIdx i⟩ := by
  obtain ⟨res, hr⟩ := exists_run_inUse a b v k m.stamp
  rw [Busy.next, h]
  dsimp only
  rw [beside, hr]

end

def noon : Backup.Moment := ⟨2025, 1, 31, 12, 0, 0⟩

/-- The generation of the small site at noon, with the rule in use or not. -/
def atNoon (v : Status) : Job := ⟨Faults.none, noon, ledgerOf (some v)⟩

/-- Two requests that merge one after the other. The first one's page does not use the rule, the second one's does. -/
def overlap (es : List Event) : List Event :=
  [.commit Faults.none noon (reportOf true)] ++ .commit Faults.none noon (reportOf false) :: es

theorem after_first : Busy.after beside ⟨inUse none [] [], []⟩ [.commit Faults.none noon (reportOf true)] =
    ⟨inUse (some (storedOf .unused)) [] [], [atNoon .unused]⟩ := next_commit_inUse [] [] noon [] none true

theorem after_overlap (es : List Event) : Busy.after beside ⟨inUse none [] [], []⟩ (overlap es) =
    Busy.after beside ⟨inUse (some (storedOf .used)) [] [], [atNoon .unused, atNoon .used]⟩ es := by
  have hsecond := next_commit_inUse [] [] noon [atNoon .unused] (some .unused) false
  rw [overlap, Busy.after_append, after_first]
  exact congrArg (Busy.after beside · es) hsecond

end StylePrune.Service
