import Mathlib.Algebra.BigOperators.Group.Finset.Basic
import Mathlib.Algebra.Order.BigOperators.Group.Finset
import Mathlib.Logic.Function.Basic
import StylePrune.Proofs.Interleaving

/-!
Requests to save that contend for the ledger's lock. Each takes its steps one by one, and steps of others may come in
between. All that the lock sees to is that one request at a time has it. The requests then come out as if they had been
served one after the other in the order in which they got the lock, and no report of a request that succeeds is lost.
-/

set_option autoImplicit false

namespace StylePrune.Service

open Ledger (Seat)

/-- A report to be saved, and what the surroundings do meanwhile. -/
structure Request where
  faults : Faults
  report : Report

def Request.call (r : Request) : Call := .save r.faults r.report

/-- How far a request has come. It has the lock from `entered` on and until it is `finished`. -/
inductive Stage where
  | waiting
  | entered
  | loaded (l : Ledger)
  | merged (m : Ledger.Merge)
  | leaving (res : Except Error Merged)
  | finished (res : Except Error Merged)

def Stage.holds : Stage → Bool
  | .waiting | .finished _ => false
  | _ => true

def Stage.succeeds : Stage → Bool
  | .finished (.ok _) => true
  | _ => false

/-- The steps that a request has left to take, or more. -/
def Stage.left : Stage → Nat
  | .waiting => 5
  | .entered => 4
  | .loaded _ => 3
  | .merged _ => 2
  | .leaving _ => 1
  | .finished _ => 0

/-- The next step of a request: to take the lock, to load the ledger, to merge the report, to write what came of it,
to give the lock back. A request that fails has only that left to do. -/
def Request.step (p : Deployment) (r : Request) (d : Disk) : Stage → Stage × Disk
  | .waiting => match Ledger.lock p.ledgerFile d with
    | (.ok (), d) => (.entered, d)
    | (.error e, d) => (.leaving (.error (.store e)), d)
  | .entered => match Ledger.load p.ledgerFile d with
    | .ok l => (.loaded l, d)
    | .error c => (.leaving (.error (.store (.corrupt c))), d)
  | .loaded l => match Ledger.merge p.generation.site r.faults.locked d l r.report with
    | (m, none) => (.merged m, d)
    | (_, some e) => (.leaving (.error (.merge e)), d)
  | .merged m => match Ledger.save p.ledgerFile m.ledger (r.faults.unwritable .ledger) d with
    | (.ok (), d) => (.leaving (.ok ⟨m.files, m.errors⟩), d)
    | (.error e, d) => (.leaving (.error (.store e)), d)
  | .leaving res | .finished res => (.finished res, d)

/-- Requests under way, and those that have had the lock so far in the order in which they got it, each with the disk
as it found it then. -/
structure Contest (n : Nat) where
  disk : Disk
  stage : Fin n → Stage
  turns : List (Fin n × Disk)

namespace Contest

variable {n : Nat}

def start (n : Nat) (d : Disk) : Contest n := ⟨d, fun _ => .waiting, []⟩

/-- A request takes its next step, unless it waits for the lock and another one has that. -/
def next (p : Deployment) (rs : Fin n → Request) (c : Contest n) (i : Fin n) : Contest n :=
  match c.stage i with
  | .waiting =>
    if ∃ j, (c.stage j).holds = true then c
    else
      let s := (rs i).step p c.disk .waiting
      ⟨s.2, Function.update c.stage i s.1, c.turns ++ [(i, s.2)]⟩
  | st =>
    let s := (rs i).step p c.disk st
    ⟨s.2, Function.update c.stage i s.1, c.turns⟩

/-- Steps of requests in any order. -/
def after (p : Deployment) (rs : Fin n → Request) (c : Contest n) (is : List (Fin n)) : Contest n :=
  is.foldl (next p rs) c

end Contest

variable {p : Deployment} {r : Request} {d d₀ d' : Disk} {q : Place} {st : Stage}

/-! ## One request -/

theorem save_of_commit_error {w : Faults} {rep : Report} {e : Error} (h : commit p w rep d = (.error e, d')) :
    save p w rep d = (.error e, d') := by
  rw [save, Disk.Action.bind_of_error h]

theorem save_of_lock_error {e : Ledger.StoreError} (h : Ledger.lock p.ledgerFile d = (.error e, d')) :
    save p r.faults r.report d = (.error (.store e), d') := by
  refine save_of_commit_error ?_
  rw [commit, Ledger.transaction, Disk.Action.bind_of_error (Disk.Action.mapError_of_error h _)]

section

variable (hlock : Ledger.lock p.ledgerFile d = (.ok (), d')) {l : Ledger} {m : Ledger.Merge}
include hlock

theorem save_of_load_error {c : Ledger.Corruption} (hl : Ledger.load p.ledgerFile d' = .error c) :
    save p r.faults r.report d = (.error (.store (.corrupt c)), d') := by
  have hask : Disk.Action.ask (Ledger.load p.ledgerFile) d' = (.error c, d') := by rw [Disk.Action.ask, hl]
  refine save_of_commit_error ?_
  rw [commit, Ledger.transaction, Disk.Action.bind_of_ok (Disk.Action.mapError_of_ok hlock _),
    Disk.Action.bind_of_error (Disk.Action.mapError_of_error hask _)]
  rfl

variable (hl : Ledger.load p.ledgerFile d' = .ok l)
include hl

theorem save_of_merge_error {e : Ledger.MergeError}
    (hm : Ledger.merge p.generation.site r.faults.locked d' l r.report = (m, some e)) :
    save p r.faults r.report d = (.error (.merge e), d') := by
  refine save_of_commit_error ?_
  rw [commit, Ledger.transaction, Disk.Action.bind_of_ok (Disk.Action.mapError_of_ok hlock _),
    Disk.Action.bind_of_ok (Disk.Action.mapError_of_ok (Disk.Action.ask_of_ok hl) _)]
  refine Disk.Action.bind_of_error ?_ _
  rw [Disk.Action.ask, hm]

variable (hm : Ledger.merge p.generation.site r.faults.locked d' l r.report = (m, none)) {d'' : Disk}
include hm

theorem commit_of_merge : commit p r.faults r.report d = ((do
    (Ledger.save p.ledgerFile m.ledger (r.faults.unwritable .ledger)).mapError Error.store
    return (⟨m.files, m.errors⟩, m.ledger) : Disk.Action Error (Merged × Ledger))) d' := by
  rw [commit, Ledger.transaction, Disk.Action.bind_of_ok (Disk.Action.mapError_of_ok hlock _),
    Disk.Action.bind_of_ok (Disk.Action.mapError_of_ok (Disk.Action.ask_of_ok hl) _)]
  refine Disk.Action.bind_of_ok (x := (m.ledger, (⟨m.files, m.errors⟩ : Merged), m.ledger)) ?_ _
  rw [Disk.Action.ask, hm]

theorem save_of_write_error {e : Ledger.StoreError}
    (hw : Ledger.save p.ledgerFile m.ledger (r.faults.unwritable .ledger) d' = (.error e, d'')) :
    save p r.faults r.report d = (.error (.store e), d'') := by
  refine save_of_commit_error ?_
  rw [commit_of_merge hlock hl hm, Disk.Action.bind_of_error (Disk.Action.mapError_of_error hw _)]

theorem save_of_write (hw : Ledger.save p.ledgerFile m.ledger (r.faults.unwritable .ledger) d' = (.ok (), d'')) :
    save p r.faults r.report d = (.ok ⟨m.files, m.errors⟩, d'') := by
  have hc : commit p r.faults r.report d = (.ok (⟨m.files, m.errors⟩, m.ledger), d'') := by
    rw [commit_of_merge hlock hl hm, Disk.Action.bind_of_ok (Disk.Action.mapError_of_ok hw _)]
    rfl
  rw [save, Disk.Action.bind_of_ok hc]
  rfl

end

/-- On the disk on which its turn began a request has done what it does when it is left to itself, up to its stage. -/
def Request.Reaches (p : Deployment) (r : Request) (d₀ : Disk) : Stage → Disk → Prop
  | .waiting, d => d = d₀
  | .entered, d => Ledger.lock p.ledgerFile d₀ = (.ok (), d)
  | .loaded l, d => Ledger.lock p.ledgerFile d₀ = (.ok (), d) ∧ Ledger.load p.ledgerFile d = .ok l
  | .merged m, d => Ledger.lock p.ledgerFile d₀ = (.ok (), d) ∧ ∃ l, Ledger.load p.ledgerFile d = .ok l ∧
      Ledger.merge p.generation.site r.faults.locked d l r.report = (m, none)
  | .leaving res, d | .finished res, d => save p r.faults r.report d₀ = (res, d)

/-- Every step goes on with what the request does when it is left to itself. -/
theorem Request.Reaches.step (h : r.Reaches p d₀ st d) : r.Reaches p d₀ (r.step p d st).1 (r.step p d st).2 := by
  cases st with
  | waiting =>
    obtain rfl : d = d₀ := h
    simp only [Request.step]
    cases hl : Ledger.lock p.ledgerFile d with
    | mk res d₁ =>
      cases res with
      | ok _ => exact hl
      | error e => exact save_of_lock_error hl
  | entered =>
    simp only [Request.step]
    cases hl : Ledger.load p.ledgerFile d with
    | ok l => exact ⟨h, hl⟩
    | error c => exact save_of_load_error h hl
  | loaded l =>
    simp only [Request.step]
    cases hm : Ledger.merge p.generation.site r.faults.locked d l r.report with
    | mk m e =>
      cases e with
      | none => exact ⟨h.1, l, h.2, hm⟩
      | some e => exact save_of_merge_error h.1 h.2 hm
  | merged m =>
    obtain ⟨hlock, l, hl, hm⟩ := h
    simp only [Request.step]
    cases hw : Ledger.save p.ledgerFile m.ledger (r.faults.unwritable .ledger) d with
    | mk res d₁ =>
      cases res with
      | ok _ => exact save_of_write hlock hl hm hw
      | error e => exact save_of_write_error hlock hl hm hw
  | leaving res => exact h
  | finished res => exact h

/-- A report merged into a ledger on the site as it is on a disk, if that goes well. -/
def Request.mergeInto (p : Deployment) (r : Request) (d : Disk) (l : Ledger) : Option Ledger :=
  match Ledger.merge p.generation.site r.faults.locked d l r.report with
  | (m, none) => some m.ledger
  | (_, some _) => none

/-- A request fails and leaves what is at the ledger's path, or its report is merged into the ledger there. -/
theorem Request.save_cases (r : Request) (hs : Seat d p.ledgerFile q) :
    Seat (save p r.faults r.report d).2 p.ledgerFile q ∧ ((∃ e, (save p r.faults r.report d).1 = .error e) ∧
        (save p r.faults r.report d).2.entryAt? p.ledgerFile = d.entryAt? p.ledgerFile ∨
      (∃ m, (save p r.faults r.report d).1 = .ok m) ∧ ∃ l l', Ledger.load p.ledgerFile d = .ok l ∧
        r.mergeInto p (Ledger.lock p.ledgerFile d).2 l = some l' ∧
        Ledger.load p.ledgerFile (save p r.faults r.report d).2 = .ok l') := by
  obtain ⟨-, hseat, h | ⟨hm, l, m, content, hl, hmerge, hc, he⟩⟩ :=
    Service.save_cases hs (Prod.eta (save p r.faults r.report d)).symm
  · exact ⟨hseat, .inl h⟩
  · exact ⟨hseat, .inr ⟨hm, l, m.ledger, hl, by simp [mergeInto, hmerge], Ledger.load_of_encode? hc he⟩⟩

theorem Stage.exists_finished (h : st.holds = false) (hn : st ≠ .waiting) : ∃ res, st = .finished res := by
  cases st <;> simp_all [Stage.holds]

theorem Request.step_ne_waiting (r : Request) (d : Disk) (st : Stage) : (r.step p d st).1 ≠ .waiting := by
  unfold Request.step
  split
  · split <;> simp
  · split <;> simp
  · split <;> simp
  · split <;> simp
  · simp
  · simp

theorem Request.holds_step_waiting (r : Request) (d : Disk) : (r.step p d .waiting).1.holds = true := by
  simp only [Request.step]
  split <;> rfl

theorem Request.step_waiting_snd (r : Request) (d : Disk) :
    (r.step p d .waiting).2 = (Ledger.lock p.ledgerFile d).2 := by
  simp only [Request.step]
  split
  · rename_i h
    rw [h]
  · rename_i h
    rw [h]

theorem Request.left_step (r : Request) (d : Disk) (h : st.holds = true ∨ st = .waiting) :
    (r.step p d st).1.left < st.left := by
  unfold Request.step
  split
  · split <;> simp [Stage.left]
  · split <;> simp [Stage.left]
  · split <;> simp [Stage.left]
  · split <;> simp [Stage.left]
  · simp [Stage.left]
  · simp [Stage.holds] at h

/-! ## Requests side by side -/

namespace Contest

variable {n : Nat} {rs : Fin n → Request} {c : Contest n} {i j : Fin n}

theorem after_append (c : Contest n) (is js : List (Fin n)) :
    c.after p rs (is ++ js) = (c.after p rs is).after p rs js := List.foldl_append

/-- The disk after requests that are served one after the other. -/
def serve (p : Deployment) (rs : Fin n → Request) (d : Disk) (is : List (Fin n)) : Disk :=
  runAll p d (is.map fun i => (rs i).call)

theorem serve_concat (is : List (Fin n)) (i : Fin n) : serve p rs d (is ++ [i]) =
    (save p (rs i).faults (rs i).report (serve p rs d is)).2 := by
  simp [serve, runAll, Request.call, Call.run]

def order (c : Contest n) : List (Fin n) := c.turns.map Prod.fst

/-- A turn in the order of turns: it began on the disk that the turns before it leave when they are served one after the
other, while it lasts it is the last one, and the request does what it does when it is served then. -/
structure Fits (p : Deployment) (rs : Fin n → Request) (d : Disk) (c : Contest n) (before : List (Fin n × Disk))
    (t : Fin n × Disk) (after : List (Fin n × Disk)) : Prop where
  found : t.2 = (Ledger.lock p.ledgerFile (serve p rs d (before.map Prod.fst))).2
  last : (c.stage t.1).holds = true → after = []
  reaches : ∃ d', (rs t.1).Reaches p (serve p rs d (before.map Prod.fst)) (c.stage t.1) d' ∧
    ((c.stage t.1).holds = true → d' = c.disk)

/-- The requests have come as far as they do when they are served one after the other in the order of their turns. -/
structure Serial (p : Deployment) (rs : Fin n → Request) (d : Disk) (c : Contest n) : Prop where
  nodup : c.order.Nodup
  mem_order : ∀ i, i ∈ c.order ↔ c.stage i ≠ .waiting
  fits : ∀ before t after, c.turns = before ++ t :: after → Fits p rs d c before t after
  idle : (∀ i, (c.stage i).holds = false) → c.disk = serve p rs d c.order

theorem serial_start (p : Deployment) (rs : Fin n → Request) (d : Disk) : Serial p rs d (start n d) where
  nodup := List.nodup_nil
  mem_order i := by simp [start, order]
  fits before t after h := by simp [start] at h
  idle _ := rfl

theorem next_of_waiting (h : c.stage i = .waiting) (hfree : ∀ j, (c.stage j).holds = false) : c.next p rs i =
    ⟨((rs i).step p c.disk .waiting).2, Function.update c.stage i ((rs i).step p c.disk .waiting).1,
      c.turns ++ [(i, ((rs i).step p c.disk .waiting).2)]⟩ := by
  have hn : ¬ ∃ j, (c.stage j).holds = true := by simp [hfree]
  simp only [next, h, if_neg hn]

theorem next_of_blocked (h : c.stage i = .waiting) (hj : (c.stage j).holds = true) : c.next p rs i = c := by
  have hex : ∃ j, (c.stage j).holds = true := ⟨j, hj⟩
  simp only [next, h, if_pos hex]

theorem next_of_ne_waiting (h : c.stage i ≠ .waiting) : c.next p rs i =
    ⟨((rs i).step p c.disk (c.stage i)).2, Function.update c.stage i ((rs i).step p c.disk (c.stage i)).1, c.turns⟩ := by
  unfold next
  split
  · rename_i hw
    exact absurd hw h
  · rfl

theorem next_of_finished {res : Except Error Merged} (h : c.stage i = .finished res) : c.next p rs i = c := by
  have hself : Function.update c.stage i (.finished res) = c.stage := by rw [← h, Function.update_eq_self]
  rw [next_of_ne_waiting (by simp [h]), h]
  simp only [Request.step, hself]

namespace Serial

variable (hc : Serial p rs d c)
include hc

theorem exists_turn (hi : c.stage i ≠ .waiting) : ∃ before x after, c.turns = before ++ (i, x) :: after := by
  obtain ⟨t, ht, rfl⟩ := List.mem_map.1 ((hc.mem_order i).2 hi)
  obtain ⟨before, after, h⟩ := List.append_of_mem ht
  exact ⟨before, t.2, after, h⟩

theorem ne_waiting {before after : List (Fin n × Disk)} {t : Fin n × Disk} (h : c.turns = before ++ t :: after) :
    c.stage t.1 ≠ .waiting :=
  (hc.mem_order t.1).1 (List.mem_map_of_mem (h ▸ List.mem_append_right _ List.mem_cons_self))

/-- The request that has the lock is the last one that got it. -/
theorem exists_last (hi : (c.stage i).holds = true) : ∃ before x, c.turns = before ++ [(i, x)] := by
  have hn : c.stage i ≠ .waiting := by
    intro h
    simp [h, Stage.holds] at hi
  obtain ⟨before, x, after, h⟩ := hc.exists_turn hn
  obtain rfl := (hc.fits before (i, x) after h).last hi
  exact ⟨before, x, h⟩

/-- No two requests have the lock. -/
theorem exclusive (hi : (c.stage i).holds = true) (hj : (c.stage j).holds = true) : i = j := by
  obtain ⟨before, x, h⟩ := hc.exists_last hi
  obtain ⟨before', y, h'⟩ := hc.exists_last hj
  have := (List.append_inj' (h.symm.trans h') rfl).2
  simp_all

/-- The lock is free and a request that waits for it gets it. -/
theorem enter (hi : c.stage i = .waiting) (hfree : ∀ j, (c.stage j).holds = false) :
    Serial p rs d (c.next p rs i) := by
  have hdisk := hc.idle hfree
  have hnew : i ∉ c.order := fun hm => (hc.mem_order i).1 hm hi
  have hholds := (rs i).holds_step_waiting (p := p) c.disk
  rw [next_of_waiting hi hfree]
  constructor
  · simpa [order, List.nodup_append] using ⟨hc.nodup, fun x y hx he => hnew (he ▸ List.mem_map_of_mem hx)⟩
  · intro j
    by_cases hj : j = i
    · subst hj
      simp [order, (rs j).step_ne_waiting]
    · have := hc.mem_order j
      simp_all [order, Function.update_of_ne]
  · intro before t after h
    rcases List.eq_nil_or_concat after with rfl | ⟨after, x, rfl⟩
    · obtain ⟨rfl, ht⟩ := List.append_inj' h rfl
      obtain rfl : (i, _) = t := List.singleton_inj.1 ht
      refine ⟨?_, fun _ => rfl, _, ?_, fun _ => rfl⟩
      · rw [(rs i).step_waiting_snd, hdisk]
        rfl
      · have hbegin : (rs i).Reaches p (serve p rs d c.order) .waiting c.disk := hdisk
        simpa [order] using hbegin.step
    · rw [List.concat_eq_append, ← List.cons_append, ← List.append_assoc] at h
      obtain ⟨h, -⟩ := List.append_inj' h rfl
      have ht : t.1 ≠ i := fun he => hc.ne_waiting h (he ▸ hi)
      obtain ⟨hfound, -, d', hreaches, -⟩ := hc.fits before t after h
      have hstage : Function.update c.stage i ((rs i).step p c.disk .waiting).1 t.1 = c.stage t.1 :=
        Function.update_of_ne ht _ _
      refine ⟨hfound, ?_, d', ?_, ?_⟩
      · simp [hstage, hfree]
      · rwa [← hstage] at hreaches
      · simp [hstage, hfree]
  · intro hno
    have := hno i
    simp [hholds] at this

/-- The request that has the lock goes on. -/
theorem proceed (hi : (c.stage i).holds = true) : Serial p rs d (c.next p rs i) := by
  have hn : c.stage i ≠ .waiting := fun h => by simp [h, Stage.holds] at hi
  rw [next_of_ne_waiting hn]
  constructor
  · exact hc.nodup
  · intro j
    change j ∈ c.order ↔ _
    by_cases hj : j = i
    · subst hj
      simpa [(rs j).step_ne_waiting] using (hc.mem_order j).2 hn
    · simpa [Function.update_of_ne hj] using hc.mem_order j
  · intro before t after h
    obtain ⟨hfound, hlast, d', hreaches, hd⟩ := hc.fits before t after h
    by_cases ht : t.1 = i
    · obtain rfl := hd (ht ▸ hi)
      refine ⟨hfound, fun _ => hlast (ht ▸ hi), _, ?_, fun _ => rfl⟩
      subst ht
      simpa using hreaches.step
    · have hstage : Function.update c.stage i ((rs i).step p c.disk (c.stage i)).1 t.1 = c.stage t.1 :=
        Function.update_of_ne ht _ _
      have hidle : (c.stage t.1).holds ≠ true := fun hh => ht (hc.exclusive hh hi)
      exact ⟨hfound, by simp [hstage, hidle], d', by simpa [hstage] using hreaches, by simp [hstage, hidle]⟩
  · intro hno
    obtain ⟨before, x, h⟩ := hc.exists_last hi
    obtain ⟨-, -, d', hreaches, hd⟩ := hc.fits before (i, x) [] h
    obtain rfl := hd hi
    obtain ⟨res, hres⟩ := Stage.exists_finished (by simpa using hno i) ((rs i).step_ne_waiting c.disk (c.stage i))
    have hsave := hreaches.step
    rw [hres] at hsave
    have horder : c.order = before.map Prod.fst ++ [i] := by simp [order, h]
    change ((rs i).step p c.disk (c.stage i)).2 = serve p rs d c.order
    rw [horder, serve_concat]
    exact (congrArg Prod.snd hsave).symm

theorem next (i : Fin n) : Serial p rs d (c.next p rs i) := by
  by_cases hw : c.stage i = .waiting
  · by_cases hfree : ∃ j, (c.stage j).holds = true
    · obtain ⟨j, hj⟩ := hfree
      rwa [next_of_blocked hw hj]
    · exact hc.enter hw (by simpa using hfree)
  · by_cases hh : (c.stage i).holds = true
    · exact hc.proceed hh
    · obtain ⟨res, hres⟩ := Stage.exists_finished (by simpa using hh) hw
      rwa [next_of_finished hres]

theorem after (is : List (Fin n)) : Serial p rs d (c.after p rs is) := by
  induction is generalizing c with
  | nil => exact hc
  | cons i is ih => exact ih (hc.next i)

/-- When nobody has the lock, requests that had it came out as they do when they are served in that order. -/
theorem finished (hfree : ∀ i, (c.stage i).holds = false) {before after : List (Fin n × Disk)} {t : Fin n × Disk}
    (h : c.turns = before ++ t :: after) : c.stage t.1 = .finished
      (save p (rs t.1).faults (rs t.1).report (serve p rs d (before.map Prod.fst))).1 := by
  obtain ⟨-, -, d', hreaches, -⟩ := hc.fits before t after h
  obtain ⟨res, hres⟩ := Stage.exists_finished (hfree t.1) (hc.ne_waiting h)
  rw [hres] at hreaches ⊢
  rw [show save p (rs t.1).faults (rs t.1).report _ = (res, d') from hreaches]

end Serial

/-! ## The ledger -/

/-- Reports merged one after the other, each on the disk that its request found. -/
def mergeInTurn (p : Deployment) (rs : Fin n → Request) (l : Ledger) (ts : List (Fin n × Disk)) : Option Ledger :=
  ts.foldlM (fun l t => (rs t.1).mergeInto p t.2 l) l

/-- Where all of them found the same site, it does not matter on which of these disks they are merged. -/
theorem mergeInTurn_congr {ts : List (Fin n × Disk)} (h : ∀ t ∈ ts, p.generation.site.SameFiles d t.2) (l : Ledger) :
    mergeInTurn p rs l ts = (ts.map Prod.fst).foldlM (fun l i => (rs i).mergeInto p d l) l := by
  induction ts generalizing l with
  | nil => rfl
  | cons t ts ih =>
    obtain ⟨ht, hts⟩ := List.forall_mem_cons.1 h
    simp only [mergeInTurn, List.map_cons, List.foldlM_cons, Request.mergeInto, Ledger.merge_congr ht]
    exact congrArg _ (funext fun l => ih hts l)

/-- The turns of the requests that succeeded. -/
def merged (c : Contest n) : List (Fin n × Disk) := c.turns.filter fun t => (c.stage t.1).succeeds

/-- The file holds what the reports merged in turn make of the ledger that it held, if it held one. -/
structure Holds (p : Deployment) (rs : Fin n → Request) (d d' : Disk) (ts : List (Fin n × Disk)) : Prop where
  loaded : ∀ l₀, Ledger.load p.ledgerFile d = .ok l₀ →
    ∃ l, mergeInTurn p rs l₀ ts = some l ∧ Ledger.load p.ledgerFile d' = .ok l
  corrupt : ∀ e, Ledger.load p.ledgerFile d = .error e →
    d'.entryAt? p.ledgerFile = d.entryAt? p.ledgerFile ∧ ts = []

theorem Holds.congr {d'' : Disk} {ts : List (Fin n × Disk)} (h : Holds p rs d d' ts)
    (he : d''.entryAt? p.ledgerFile = d'.entryAt? p.ledgerFile) : Holds p rs d d'' ts := by
  have hl : Ledger.load p.ledgerFile d'' = Ledger.load p.ledgerFile d' := by rw [Ledger.load_eq, Ledger.load_eq, he]
  exact ⟨fun l₀ h₀ => hl ▸ h.loaded l₀ h₀, fun e h₀ => he ▸ h.corrupt e h₀⟩

/-- One more request that succeeds has its report merged into what is there. -/
theorem Holds.concat {d'' : Disk} {ts : List (Fin n × Disk)} {t : Fin n × Disk} {l l' : Ledger}
    (h : Holds p rs d d' ts) (hl : Ledger.load p.ledgerFile d' = .ok l) (hm : (rs t.1).mergeInto p t.2 l = some l')
    (hl' : Ledger.load p.ledgerFile d'' = .ok l') : Holds p rs d d'' (ts ++ [t]) := by
  constructor
  · intro l₀ h₀
    obtain ⟨l₁, hts, h₁⟩ := h.loaded l₀ h₀
    obtain rfl := Except.ok.inj (hl.symm.trans h₁)
    refine ⟨l', ?_, hl'⟩
    rw [mergeInTurn] at hts
    simp [mergeInTurn, hts, hm]
  · intro e h₀
    have he := (h.corrupt e h₀).1
    rw [Ledger.load_eq, he, ← Ledger.load_eq, h₀] at hl
    cases hl

/-- Turns from the first on leave what the reports of those that succeeded make of the ledger. -/
theorem Serial.holds_prefix (hc : Serial p rs d c) (hs : Seat d p.ledgerFile q) (hfree : ∀ i, (c.stage i).holds = false)
    {ts : List (Fin n × Disk)} (hts : ts <+: c.turns) : Seat (serve p rs d (ts.map Prod.fst)) p.ledgerFile q ∧
      Holds p rs d (serve p rs d (ts.map Prod.fst)) (ts.filter fun t => (c.stage t.1).succeeds) := by
  induction ts using List.reverseRecOn with
  | nil => exact ⟨hs, fun l₀ h₀ => ⟨l₀, rfl, h₀⟩, fun e _ => ⟨rfl, rfl⟩⟩
  | append_singleton ts t ih =>
    obtain ⟨hseat, hholds⟩ := ih ((List.prefix_append ts [t]).trans hts)
    obtain ⟨after, hafter⟩ := hts
    have hsplit : c.turns = ts ++ t :: after := by simp [← hafter]
    have hfound := (hc.fits ts t after hsplit).found
    have hstage := hc.finished hfree hsplit
    rw [List.map_append, List.map_singleton, serve_concat, List.filter_append]
    obtain ⟨hseat', ⟨⟨e, he⟩, hentry⟩ | ⟨⟨m, hm⟩, l, l', hl, hmerge, hl'⟩⟩ := (rs t.1).save_cases hseat
    · rw [he] at hstage
      simpa [hstage, Stage.succeeds] using ⟨hseat', hholds.congr hentry⟩
    · rw [hm] at hstage
      rw [← hfound] at hmerge
      simpa [hstage, Stage.succeeds] using ⟨hseat', hholds.concat hl hmerge hl'⟩

/-- Once nobody has the lock the requests that had it came out as they do when they are served one after the other in
the order in which they got it, and the file holds what the reports of just those that succeeded, merged in this order,
make of the ledger that was there. -/
theorem no_lost_update (rs : Fin n → Request) (hs : Seat d p.ledgerFile q) (is : List (Fin n))
    (hfree : ∀ i, (((start n d).after p rs is).stage i).holds = false) : let c := (start n d).after p rs is
    c.order.Nodup ∧ (∀ i, i ∈ c.order ↔ c.stage i ≠ .waiting) ∧ c.disk = serve p rs d c.order ∧
    (∀ before t after, c.turns = before ++ t :: after →
      t.2 = (Ledger.lock p.ledgerFile (serve p rs d (before.map Prod.fst))).2 ∧ c.stage t.1 = .finished
        (save p (rs t.1).faults (rs t.1).report (serve p rs d (before.map Prod.fst))).1) ∧
    (∀ l₀, Ledger.load p.ledgerFile d = .ok l₀ → ∃ l, mergeInTurn p rs l₀ c.merged = some l ∧
      Ledger.load p.ledgerFile c.disk = .ok l ∧ ((∀ t ∈ c.turns, p.generation.site.SameFiles d t.2) →
        (c.merged.map Prod.fst).foldlM (fun l i => (rs i).mergeInto p d l) l₀ = some l)) ∧
    (∀ e, Ledger.load p.ledgerFile d = .error e →
      c.disk.entryAt? p.ledgerFile = d.entryAt? p.ledgerFile ∧ c.merged = []) := by
  intro c
  have hc : Serial p rs d c := (serial_start p rs d).after is
  obtain ⟨-, hholds⟩ := hc.holds_prefix hs hfree (List.prefix_refl c.turns)
  rw [show c.turns.map Prod.fst = c.order from rfl, ← hc.idle hfree] at hholds
  refine ⟨hc.nodup, hc.mem_order, hc.idle hfree,
    fun before t after h => ⟨(hc.fits before t after h).found, hc.finished hfree h⟩, fun l₀ h₀ => ?_, hholds.corrupt⟩
  obtain ⟨l, hmerge, hl⟩ := hholds.loaded l₀ h₀
  refine ⟨l, hmerge, hl, fun hsame => ?_⟩
  exact (mergeInTurn_congr (fun t ht => hsame t (List.mem_of_mem_filter ht)) l₀).symm.trans hmerge

/-! ## No standstill -/

def left (c : Contest n) : Nat := ∑ i, (c.stage i).left

theorem left_update (h : (c.stage i).holds = true ∨ c.stage i = .waiting) (d : Disk) (ts : List (Fin n × Disk)) :
    left ⟨d, Function.update c.stage i ((rs i).step p c.disk (c.stage i)).1, ts⟩ < c.left := by
  have hlt := (rs i).left_step (p := p) c.disk h
  refine Finset.sum_lt_sum (fun j _ => ?_) ⟨i, Finset.mem_univ i, by simpa using hlt⟩
  by_cases hj : j = i
  · subst hj
    simpa using hlt.le
  · simp [Function.update_of_ne hj]

/-- As long as a request is not finished one of them can go on. -/
theorem exists_next (p : Deployment) (rs : Fin n → Request) (hi : ∀ res, c.stage i ≠ .finished res) : ∃ j, (c.next p rs j).left < c.left := by
  by_cases hfree : ∃ j, (c.stage j).holds = true
  · obtain ⟨j, hj⟩ := hfree
    refine ⟨j, ?_⟩
    rw [next_of_ne_waiting fun h => by simp [h, Stage.holds] at hj]
    exact left_update (.inl hj) _ _
  · have hfree : ∀ j, (c.stage j).holds = false := by simpa using hfree
    have hw : c.stage i = .waiting := by
      by_contra hn
      obtain ⟨res, hres⟩ := Stage.exists_finished (hfree i) hn
      exact hi res hres
    refine ⟨i, ?_⟩
    rw [next_of_waiting hw hfree, ← hw]
    exact left_update (.inr hw) _ _

/-- Whatever steps have been taken, others lead to where all requests are finished. -/
theorem exists_after_finished (p : Deployment) (rs : Fin n → Request) (c : Contest n) :
    ∃ is, ∀ i, ∃ res, (c.after p rs is).stage i = .finished res := by
  induction hk : c.left using Nat.strongRecOn generalizing c with
  | ind k ih =>
    by_cases hdone : ∀ i, ∃ res, c.stage i = .finished res
    · exact ⟨[], hdone⟩
    · obtain ⟨i, hi⟩ := not_forall.1 hdone
      obtain ⟨j, hj⟩ := exists_next p rs (not_exists.1 hi)
      obtain ⟨is, his⟩ := ih _ (hk ▸ hj) (c.next p rs j) rfl
      exact ⟨j :: is, his⟩

end Contest

/-- A request whose page does not use the rule, and one whose page does. -/
def rivals : Fin 2 → Request := ![⟨Faults.none, reportOf true⟩, ⟨Faults.none, reportOf false⟩]

theorem serve_rivals {is : List (Fin 2)} (h : is.Perm [0, 1]) :
    Contest.serve beside rivals (inUse none [] []) is = inUse (some (storedOf .used)) [] [] := by
  have next (o : Option Status) (listed : Bool) :
      (save beside Faults.none (reportOf listed) (inUse (o.map storedOf) [] [])).2 =
        inUse (some (storedOf (turned o listed))) [] [] := by
    rw [save_snd, commit_inUse]
  have hboth : is = [0, 1] ∨ is = [1, 0] := by
    have := List.mem_permutations.2 h
    simpa [List.permutations] using this
  rcases hboth with rfl | rfl
  · exact (congrArg (fun d => (save beside Faults.none (reportOf false) d).2) (next none true)).trans
      (next (some .unused) false)
  · exact (congrArg (fun d => (save beside Faults.none (reportOf true) d).2) (next none false)).trans
      (next (some .used) true)

/-- The second request asks for the lock while the first one has it. Once both are finished the rule is in use,
whichever of them went first. -/
theorem no_lost_update_rivals : ∃ is, let c := (Contest.start 2 (inUse none [] [])).after beside rivals ([0, 1, 0] ++ is)
    (∀ i, ∃ res, c.stage i = .finished res) ∧ Ledger.load "/l" c.disk = .ok (ledgerOf (some .used)) := by
  obtain ⟨is, his⟩ := Contest.exists_after_finished beside rivals
    ((Contest.start 2 (inUse none [] [])).after beside rivals [0, 1, 0])
  rw [← Contest.after_append] at his
  refine ⟨is, his, ?_⟩
  obtain ⟨hnodup, hmem, hdisk, -⟩ := Contest.no_lost_update rivals (separate_beside [] []).seat ([0, 1, 0] ++ is)
    fun i => by
      obtain ⟨res, h⟩ := his i
      rw [h]
      rfl
  have hboth : ([0, 1] : List (Fin 2)).Nodup := by decide
  have hperm := (List.perm_ext_iff_of_nodup hnodup hboth).2 fun i => by
    obtain ⟨res, h⟩ := his i
    rw [hmem, h]
    fin_cases i <;> simp
  rw [hdisk, serve_rivals hperm]
  exact load_inUse [] [] (some .used)

end StylePrune.Service
