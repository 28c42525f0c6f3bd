import StylePrune.Proofs.Disk.Repeating
import StylePrune.Proofs.Originals
import StylePrune.Proofs.Service

/-!
A deployment whose parts stand apart. Neither the ledger nor its lock is among what generation writes, and none of
them is on the site. Whatever requests do then, the site is read as at first, and so a file is cleaned to the same text
at the same path whenever its turn comes with the same statuses.
-/

set_option autoImplicit false

namespace StylePrune

/-- Below the place to which a path goes straight down it can go on, if no link is there. -/
theorem Disk.Straight.join {d : Disk} {path name last n : Text} {base : Place} {ms : List Text}
    (h : Straight d path base last) (hn : Path.Descends name) (hi : Text.splitOn '/' name = ms ++ [n])
    (hown : Disk.isOwnName n = true) (hl : ∀ q t, base ++ [last] <+: q → d.entry? q ≠ some (.link t)) :
    Straight d (Path.join path name) (base ++ [last] ++ ms.filter Disk.isOwnName) n := by
  obtain ⟨front, init, a, hsplit, hup, ha, rfl, hlinks⟩ := h.exists_front
  have hlast : last ≠ [] := by
    rintro rfl
    exact absurd h.isOwnName (by decide)
  have hjoin : Text.splitOn '/' (Path.join path name) = front ++ (init ++ [last] ++ ms) ++ [n] := by
    obtain ⟨start, hs, hstart | hstart⟩ := Path.exists_splitOn_join path hn.isRelative
    · rw [hs, hstart, hsplit, hi]
      simp
    · rw [hsplit] at hstart
      have := (List.append_inj' hstart rfl).2
      exact absurd (List.singleton_inj.1 this).symm hlast
  have hfilter : (init ++ [last] ++ ms).filter Disk.isOwnName =
      init.filter Disk.isOwnName ++ [last] ++ ms.filter Disk.isOwnName := by
    rw [List.filter_append, List.filter_append, List.filter_cons_of_pos h.isOwnName, List.filter_nil]
  refine ⟨⟨front, init ++ [last] ++ ms, a, hjoin, ?_, ha, by rw [hfilter]; simp, fun q t hq hq' => ?_⟩, hown⟩
  · intro hm
    have hm : (".." : Text) ∈ front ++ init ∨ (".." : Text) = last ∨ (".." : Text) ∈ ms := by
      simpa [or_assoc] using hm
    rcases hm with hm | rfl | hm
    · exact hup hm
    · exact absurd h.isOwnName (by decide)
    · exact hn.not_up (hi ▸ List.mem_append_left _ hm)
  · rcases List.prefix_or_prefix_of_prefix hq' (List.prefix_append (a ++ init.filter Disk.isOwnName ++ [last])
      (ms.filter Disk.isOwnName ++ [n]) |>.trans (by simp)) with hle | hle
    · exact hlinks q t hq hle
    · exact hl q t hle

namespace Site

variable {s : Site} {locked : Text → Bool} {d d' : Disk}

/-- What a name resolves to on the site is the same on two disks as far as reading goes. -/
def SameFile (s : Site) (d d' : Disk) (file : Text) : Prop := Disk.SameLinks d d' ∧ ∀ root place,
  d.resolve s.root = .ok root → d.resolve (Path.join (Disk.pathOf root) file) = .ok place →
    Disk.isBelow root place = true → ∀ f, d'.open? (Disk.pathOf place) = .ok f ↔ d.open? (Disk.pathOf place) = .ok f

/-- The site is the same on two disks as far as reading goes. -/
def SameFiles (s : Site) (d d' : Disk) : Prop := Disk.SameLinks d d' ∧ ∀ root file place,
  d.resolve s.root = .ok root → d.resolve (Path.join (Disk.pathOf root) file) = .ok place →
    Disk.isBelow root place = true → ∀ f, d'.open? (Disk.pathOf place) = .ok f ↔ d.open? (Disk.pathOf place) = .ok f

theorem SameFiles.file (h : s.SameFiles d d') (file : Text) : s.SameFile d d' file :=
  ⟨h.1, fun root place => h.2 root file place⟩

theorem SameFile.locate_eq {file : Text} (h : s.SameFile d d' file) : locate s d' file = locate s d file := by
  unfold locate
  rw [Disk.resolve_congr h.1]
  by_cases hi : file = SourceKey.inline
  · rw [if_pos hi, if_pos hi]
  · rw [if_neg hi, if_neg hi]
    cases hr : d.resolve s.root with
    | error b => rfl
    | ok root =>
      simp only [Disk.resolve_congr h.1]
      cases hp : d.resolve (Path.join (Disk.pathOf root) file) with
      | error b => rfl
      | ok place =>
        by_cases hb : Disk.isBelow root place = true
        · have hf : d'.isFile (Disk.pathOf place) = d.isFile (Disk.pathOf place) := by
            rw [Bool.eq_iff_iff, Disk.isFile_iff, Disk.isFile_iff]
            exact exists_congr (h.2 root place hr hp hb)
          simp only [hf]
        · simp [hb]

theorem locate_congr (h : s.SameFiles d d') (file : Text) : locate s d' file = locate s d file := (h.file file).locate_eq

theorem read_congr (h : s.SameFiles d d') (file : Text) : read s locked d' file = read s locked d file := by
  unfold read
  rw [locate_congr h]
  cases hl : locate s d file with
  | error e => rfl
  | ok place =>
    obtain ⟨-, root, hr, hp, hb, hf⟩ := locate_eq_ok hl
    obtain ⟨f, hf⟩ := Disk.isFile_iff.1 hf
    simp only [hf, (h.2 root file place hr hp hb f).2 hf]

end Site

namespace Ledger

variable {s : Site} {locked : Text → Bool} {d d' : Disk}

theorem Merge.run_congr (h : s.SameFiles d d') (m : Merge) (es : List (Text × List Css.Use)) :
    m.run s locked d' es = m.run s locked d es :=
  Merge.run_of_read (fun _ _ file _ _ => Site.read_congr h file) m

theorem merge_congr (h : s.SameFiles d d') (l : Ledger) (r : Report) : merge s locked d' l r = merge s locked d l r :=
  Merge.run_congr h _ _

end Ledger

namespace Generation

variable {u : Setup} {w : Faults} {d d' : Disk}

theorem prepare_congr (h : u.site.SameFiles d d') (file : Text) (st : Statuses) :
    prepare u w d' file st = prepare u w d file st := by
  simp only [prepare, Site.read_congr h, Setup.destination, Disk.resolve_congr h.1]

end Generation

/-- Places at and below the output directory. -/
def Generation.Setup.InOutput (u : Setup) (d : Disk) (q : Place) : Prop :=
  ∃ out, d.resolve u.output = .ok out ∧ Disk.isBelow out q = true

theorem Generation.Setup.InOutput.room {u : Setup} {d : Disk} {q : Place} : u.InOutput d q → u.Room d q :=
  fun ⟨out, hout, hq⟩ => ⟨u.output, List.mem_cons_self, out, hout, hq⟩

namespace Service

open Disk (Evolves Straight anywhere)
open Disk.Action (Keeps)

variable {p : Deployment} {w : Faults} {r : Report} {d d₀ d' : Disk} {dir q : Place} {name : Text}

/-- Where requests put files: below the directories for output and backups, at the ledger's place and at its lock's. -/
def Written (p : Deployment) (d : Disk) (dir : Place) (name : Text) (q : Place) : Prop :=
  p.generation.Room d q ∨ q = dir ++ [name] ∨ q = Ledger.lockPlace dir name

/-- The parts of a deployment stand apart. The ledger's file is `name` in `dir`. -/
structure Separate (p : Deployment) (d : Disk) (dir : Place) (name : Text) : Prop where
  /-- Everything on the disk stands in a directory. -/
  rooted : Disk.Rooted d
  kept : Ledger.Kept d p.ledgerFile dir name
  seat : Ledger.Seat d p.ledgerFile (dir ++ [name])
  confined : p.generation.Confined d
  /-- Neither the ledger nor its lock is among what generation writes. -/
  ledger : ¬ p.generation.Room d (dir ++ [name])
  lock : ¬ p.generation.Room d (Ledger.lockPlace dir name)
  /-- What a name on the site resolves to is not written, and no link is left in it. -/
  site : ∀ root file place, d.resolve p.generation.site.root = .ok root →
    d.resolve (Path.join (Disk.pathOf root) file) = .ok place → Disk.isBelow root place = true →
      ¬ Written p d dir name place ∧ Disk.Linkless d place
  /-- The path of the output directory goes straight down to the place that it resolves to. -/
  output : ∃ base last, Straight d p.generation.output base last ∧
    d.resolve p.generation.output = .ok (base ++ [last])
  /-- Backups are not made among the output, nor the other way round. -/
  backups : ∀ folder ∈ p.generation.backup, ∀ out place, d.resolve p.generation.output = .ok out →
    d.resolve folder = .ok place → Disk.isBelow out place = false ∧ Disk.isBelow place out = false

/-- What requests may have made of a disk. -/
abbrev Moves (p : Deployment) (d₀ : Disk) (dir : Place) (name : Text) (d d' : Disk) : Prop :=
  Evolves anywhere (Written p d₀ dir name) d d'

namespace Separate

variable (hs : Separate p d₀ dir name)
include hs

theorem unlinked (t : Text) (hq : Written p d₀ dir name q) : d₀.entry? q ≠ some (.link t) := by
  rcases hq with hq | rfl | rfl
  · exact hs.confined.unlinked q t hq
  · exact hs.kept.straight.ne_link t
  · exact hs.kept.lockUnlinked t

variable (h : Moves p d₀ dir name d₀ d)
include h

theorem sameLinks : Disk.SameLinks d₀ d := h.sameLinks fun _ t hq => hs.unlinked t hq

/-- Whatever requests have done, the site is as it was. -/
theorem sameFiles : p.generation.site.SameFiles d₀ d := by
  refine ⟨hs.sameLinks h, fun root file place hr hp hb f => ?_⟩
  obtain ⟨hn, hl⟩ := hs.site root file place hr hp hb
  exact h.open?_pathOf_iff hs.rooted (fun q t hq => hs.unlinked t hq) (Disk.plain_of_resolve hp) hl hn

theorem kept' : Ledger.Kept d p.ledgerFile dir name :=
  ⟨hs.kept.straight.later h.inherits.later (hs.sameLinks h),
    fun t ht => hs.kept.lockUnlinked t (h.inherits.link _ t ht)⟩

/-- Generation goes on with what it and other requests may do. -/
theorem run_moves (w : Faults) (m : Backup.Moment) (l : Ledger) :
    Moves p d₀ dir name d (Generation.run p.generation w m.stamp l d).2 :=
  (hs.confined.run h.inherits w m.descends_stamp l d (Evolves.refl _ _ d)).mono (fun _ => id) fun _ => .inl

/-- A commit writes the ledger and its lock, and nothing else. -/
theorem commit_evolves (w : Faults) (r : Report) :
    Evolves anywhere (fun q => q = dir ++ [name] ∨ q = Ledger.lockPlace dir name) d (commit p w r d).2 := by
  have hk := hs.kept' h
  have hlock : Evolves anywhere (fun q => q = dir ++ [name] ∨ q = Ledger.lockPlace dir name) d
      (Ledger.lock p.ledgerFile d).2 := hk.lock_evolves.mono (fun _ _ => trivial) fun _ => .inr
  refine Keeps.bind_of hlock fun _ d₁ hl h₁ => ?_
  have hk₁ : Ledger.Kept d₁ p.ledgerFile dir name := by
    have := hk.of_enlarges (Ledger.lock_enlarges p.ledgerFile d)
    rwa [Disk.Action.mapError_eq_ok hl] at this
  refine Keeps.bind_of h₁ fun before d₂ hload h₂ => ?_
  obtain ⟨-, rfl⟩ := Disk.Action.ask_eq_ok (Disk.Action.mapError_eq_ok hload)
  refine Keeps.bind_of h₂ fun change d₃ hask h₃ => ?_
  obtain ⟨-, rfl⟩ := Disk.Action.ask_eq_ok hask
  refine Keeps.bind_of (h₃.trans ?_) fun _ _ _ h => h
  exact Disk.replaceFile_evolves (Disk.makeDirectories_evolves _ _ fun _ _ _ _ _ _ _ => trivial)
    (fun _ _ he ht => .inl ((hk₁.straight.of_enlarges he).of_target ht)) rfl

theorem lock_moves : Moves p d₀ dir name d (Ledger.lock p.ledgerFile d).2 :=
  (hs.kept' h).lock_evolves.mono (fun _ _ => trivial) fun _ hq => .inr (.inr hq)

theorem commit_moves (w : Faults) (r : Report) : Moves p d₀ dir name d (commit p w r d).2 :=
  (hs.commit_evolves h w r).mono (fun _ => id) fun _ => .inr

theorem content?_commit (w : Faults) (r : Report) (hq : p.generation.Room d₀ q) :
    (commit p w r d).2.content? q = d.content? q :=
  (hs.commit_evolves h w r).content?_eq fun hw => hw.elim (fun he => hs.ledger (he ▸ hq)) fun he => hs.lock (he ▸ hq)

/-- A commit fails and leaves the ledger's file as it is, or it puts there and gives back what merging on the site as
it was at first makes of the ledger. -/
theorem commit_cases {res : Except Error (Merged × Ledger)} (hseat : Ledger.Seat d p.ledgerFile (dir ++ [name]))
    (hc : commit p w r d = (res, d')) : Ledger.Seat d' p.ledgerFile (dir ++ [name]) ∧
      ((∃ x, res = .error x) ∧ d'.entryAt? p.ledgerFile = d.entryAt? p.ledgerFile ∨
        ∃ l m content, Ledger.load p.ledgerFile d = .ok l ∧
          Ledger.merge p.generation.site w.locked d₀ l r = (m, none) ∧ res = .ok (⟨m.files, m.errors⟩, m.ledger) ∧
          Ledger.load p.ledgerFile d' = .ok m.ledger ∧ d'.entryAt? p.ledgerFile = some (.file content 0)) := by
  obtain ⟨-, hseat', ⟨⟨e, rfl, -⟩, hentry⟩ | ⟨a, l, l', content, rfl, hl, hchange, hcontent, hf, he⟩⟩ :=
    hseat.transaction_cases hc
  · exact ⟨hseat', .inl ⟨⟨e, rfl⟩, hentry⟩⟩
  · have hentry := Disk.entryAt?_eq_some_iff.2 ⟨_, hf, he⟩
    dsimp only at hchange
    rw [Ledger.merge_congr (hs.sameFiles (h.trans (hs.lock_moves h)))] at hchange
    cases hm : Ledger.merge p.generation.site w.locked d₀ l r with
    | mk m x =>
      cases x with
      | some x => simp [hm] at hchange
      | none =>
        simp only [hm, Except.ok.injEq, Prod.mk.injEq] at hchange
        obtain ⟨rfl, rfl⟩ := hchange
        exact ⟨hseat', .inr ⟨l, m, content, hl, hm, rfl, Ledger.load_of_encode? hcontent hentry, hentry⟩⟩

/-- A run leaves a ledger that is there as it is. -/
theorem run_stored {content : Bytes} (w : Faults) (m : Backup.Moment) (l : Ledger)
    (hseat : Ledger.Seat d p.ledgerFile (dir ++ [name])) (he : d.entryAt? p.ledgerFile = some (.file content 0)) :
    Ledger.Seat (Generation.run p.generation w m.stamp l d).2 p.ledgerFile (dir ++ [name]) ∧
      (Generation.run p.generation w m.stamp l d).2.entryAt? p.ledgerFile = some (.file content 0) := by
  obtain ⟨q, hq, hqe⟩ := Disk.entryAt?_eq_some_iff.1 he
  obtain rfl := (hs.kept' h).straight.of_find hq
  exact hseat.of_evolves (hs.confined.run h.inherits w m.descends_stamp l d (Evolves.refl _ _ d))
    (fun x t hx hxt => hs.confined.unlinked x t hx (h.inherits.link x t hxt)) hq hqe hs.ledger

end Separate

end Service
end StylePrune
