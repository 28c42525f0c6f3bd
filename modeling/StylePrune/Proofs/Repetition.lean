import StylePrune.Proofs.Failure
import StylePrune.Proofs.Separation

/-!
Generating a second time. A run that works on the same site from statuses that clean every file to the same text does
what an earlier run did: it writes the same texts at the same places and fails with the same files, whatever came to
the disk in between.
-/

set_option autoImplicit false

namespace StylePrune

namespace Disk

variable {d d' d'' e e' e'' : Disk} {path text : Text}

/-- Two changes of which at each place both leave the same file, or neither does anything there. -/
def InStep (d d' e e' : Disk) : Prop := ∀ p, e'.content? p = d'.content? p ∨
  d'.content? p = d.content? p ∧ e'.content? p = e.content? p

theorem InStep.trans (h : InStep d d' e e') (h' : InStep d' d'' e' e'') : InStep d d'' e e'' := by
  intro p
  rcases h' p with hp' | ⟨hd', he'⟩
  · exact .inl hp'
  · rcases h p with hp | ⟨hd, he⟩
    · exact .inl (by rw [he', hp, hd'])
    · exact .inr ⟨hd'.trans hd, he'.trans he⟩

theorem inStep_of_eq (hd : ∀ p, d'.content? p = d.content? p) (he : ∀ p, e'.content? p = e.content? p) :
    InStep d d' e e' := fun p => .inr ⟨hd p, he p⟩

theorem content?_set {p : Place} {content : Bytes} {modified : Int} (hp : p ≠ []) (q : Place) :
    content? (d.set p (.file content modified)) q = if q = p then some content else d.content? q := by
  rw [content?, entry?_set hp]
  by_cases hq : q = p
  · rw [if_pos hq, if_pos hq]
  · rw [if_neg hq, if_neg hq, content?]

theorem content?_replaceFile_of_error {refuse : Bool} {x : WriteError} (h : replaceFile path text refuse d = (.error x, d'))
    (p : Place) : d'.content? p = d.content? p := (receives_of_replaceFile_error h).content?_eq p

/-- A text is put later at a path where it was put earlier, and the two writes leave the same. -/
theorem replaceFile_again {refuse : Bool} (hp : Plain (wayTo path)) (h : replaceFile path text refuse d = (.ok (), d'))
    (hk : SameLinks d d') (hl : Later d' e) (hk' : SameLinks d' e) :
    ∃ e', replaceFile path text refuse e = (.ok (), e') ∧ InStep d d' e e' := by
  obtain ⟨p, content, d₁, hlaid, hc, rfl, hd, rfl, hne⟩ := laid_of_replaceFile h hk
  refine ⟨_, (hlaid.later hl hk').replaceFile hp hc, fun q => ?_⟩
  rw [content?_set hne, content?_set hne]
  by_cases hq : q = p
  · rw [if_pos hq, if_pos hq]
    exact .inl rfl
  · rw [if_neg hq, if_neg hq]
    exact .inr ⟨hd.content?_eq id, rfl⟩

end Disk

namespace Generation

variable {u : Setup} {w : Faults} {d d' : Disk}

/-- What becomes of a file that is read and parses is decided by writing its text. -/
theorem exists_cleanFile_of_prepare {file path : Text} {st : Statuses} {c : Cleaned} {r : Except Disk.WriteError Unit}
    (hp : prepare u w d file st = .ok (c, path))
    (hr : Disk.replaceFile path c.css (w.unwritable (.cleaned file)) d = (r, d')) : ∃ r',
    cleanFile u w file st d = (r', d') ∧ r'.toOption = r.toOption.map (fun _ => c) ∧ ∀ x, r' ≠ .error (.fatal x) := by
  have hfatal (x : RunError) : (cleanFile u w file st d).1 ≠ .error (.fatal x) := fun hx => by
    cases hp.symm.trans (cleanFile_eq_fatal_iff.1 hx)
  cases r with
  | ok _ => exact ⟨.ok c, cleanFile_of_prepare hp hr, rfl, nofun⟩
  | error x =>
    rw [cleanFile, Disk.Action.bind_of_ok (Disk.Action.ask_of_ok hp),
      Disk.Action.bind_of_error (Disk.Action.mapError_of_error hr _)] at hfatal ⊢
    exact ⟨_, rfl, rfl, hfatal⟩

/-- Cleaning goes on after a file unless that ends the run. -/
theorem cleanFiles_cons_eq_ok_iff {e : Text × Statuses} {es : List (Text × Statuses)} {r : Except FileError Cleaned}
    {d₁ : Disk} {cs : List Cleaned} (h : cleanFile u w e.1 e.2 d = (r, d₁)) :
    (∃ o, cleanFiles u w (e :: es) d = (.ok o, d') ∧ o.cleaned = cs) ↔ (∀ x, r ≠ .error (.fatal x)) ∧
      ∃ o, cleanFiles u w es d₁ = (.ok o, d') ∧ r.toOption.toList ++ o.cleaned = cs := by
  have after (f : Outcome → Outcome) (c? : Option Cleaned) (hf : ∀ o, (f o).cleaned = c?.toList ++ o.cleaned) :
      (∃ o, (cleanFiles u w es >>= fun o => pure (f o)) d₁ = (.ok o, d') ∧ o.cleaned = cs) ↔
        ∃ o, cleanFiles u w es d₁ = (.ok o, d') ∧ c?.toList ++ o.cleaned = cs := by
    constructor
    · rintro ⟨o, ho, hcs⟩
      obtain ⟨o₁, d₂, h₁, h₂⟩ := Disk.Action.bind_eq_ok ho
      obtain ⟨ho₁, rfl⟩ := Prod.mk.inj h₂
      exact ⟨o₁, h₁, by rw [← hf, Except.ok.inj ho₁, hcs]⟩
    · rintro ⟨o, ho, hcs⟩
      exact ⟨f o, Disk.Action.bind_of_ok ho _, by rw [hf, hcs]⟩
  have line (x : FileError) (hx : ∀ y, x ≠ .fatal y) :=
    (after (fun o => { o with errors := x.line e.1 :: o.errors }) none fun _ => rfl).trans
      (and_iff_right (a := ∀ y, (.error x : Except FileError Cleaned) ≠ .error (.fatal y)) fun y hy =>
        hx y (Except.error.inj hy)).symm
  rw [cleanFiles, Disk.Action.attempt_bind, h]
  cases r with
  | ok c =>
    have hne (x : RunError) : (.ok c : Except FileError Cleaned) ≠ .error (.fatal x) := by simp
    exact (after (fun o => { o with cleaned := c :: o.cleaned }) (some c) fun o => rfl).trans (and_iff_right hne).symm
  | error x =>
    cases x with
    | fatal x =>
      refine iff_of_false (fun h => ?_) fun hx => hx.1 x rfl
      obtain ⟨o, ho, -⟩ := h
      obtain ⟨_, _, -, h₂⟩ := Disk.Action.bind_eq_ok ho
      cases (Prod.mk.inj h₂).1
    | unavailable x => exact line (.unavailable x) (by simp)
    | illFormed x => exact line (.illFormed x) (by simp)
    | notWritten x => exact line (.notWritten x) (by simp)

/-- Two ledgers of the same files by which every file is cleaned to the same text. -/
structure CleansAlike (u : Setup) (w : Faults) (d : Disk) (l l' : Ledger) : Prop where
  keys : l'.keys = l.keys
  prepare : ∀ file st st', l.get? file = some st → l'.get? file = some st' →
    prepare u w d file st' = prepare u w d file st

theorem CleansAlike.refl (u : Setup) (w : Faults) (d : Disk) (l : Ledger) : CleansAlike u w d l l :=
  ⟨rfl, fun _ _ _ h h' => by rw [Option.some.inj (h.symm.trans h')]⟩

theorem CleansAlike.filesOf {l l' : Ledger} (h : CleansAlike u w d l l') :
    List.Forall₂ (fun e e' => e'.1 = e.1 ∧ Generation.prepare u w d e'.1 e'.2 = Generation.prepare u w d e.1 e.2)
      (filesOf l) (filesOf l') := by
  have hall : List.Forall₂ (fun e e' => e'.1 = e.1 ∧
      Generation.prepare u w d e'.1 e'.2 = Generation.prepare u w d e.1 e.2) l.entries l'.entries := by
    refine List.forall₂_iff_get.2 ⟨?_, fun i hi hi' => ?_⟩
    · simpa [Table.keys] using (congrArg List.length h.keys).symm
    · have hfst : (l'.entries.get ⟨i, hi'⟩).1 = (l.entries.get ⟨i, hi⟩).1 := by
        have hkeys := congrArg (·[i]?) h.keys
        simpa [Table.keys, hi, hi'] using hkeys
      have he := Table.get?_of_mem (List.get_mem l.entries ⟨i, hi⟩)
      have he' := Table.get?_of_mem (List.get_mem l'.entries ⟨i, hi'⟩)
      rw [hfst] at he'
      exact ⟨hfst, by rw [hfst, h.prepare _ _ _ he he']⟩
  refine List.rel_filter (fun e e' he => ?_) hall
  simp only [he.1]

end Generation

namespace Service.Separate

open Disk (Straight InStep Evolves anywhere)
open Disk.Action (Keeps)
open Generation

variable {p : Deployment} {w : Faults} {d d' d₀ e e' : Disk} {dir q : Place} {name : Text}
variable (hs : Separate p d₀ dir name)
include hs

/-- Below the output directory a path goes straight down to a name that something can have. -/
theorem straight {way n : Text} {ms : List Text} (hw : Path.Descends way) (h : Moves p d₀ dir name d₀ d)
    (hi : Text.splitOn '/' way = ms ++ [n]) (hn : Disk.isOwnName n = true) :
    ∃ base last, Straight d (Path.join p.generation.output way) base last := by
  obtain ⟨base, last, hstraight, hout⟩ := hs.output
  refine ⟨_, _, (hstraight.join hw hi hn fun q t hq => ?_).later h.inherits.later (hs.sameLinks h)⟩
  exact hs.confined.unlinked q t ⟨_, List.mem_cons_self, _, hout, Disk.isBelow_iff.2 hq⟩

theorem straight_or {way : Text} (hw : Path.Descends way) (h : Moves p d₀ dir name d₀ d) :
    (∃ base last, Straight d (Path.join p.generation.output way) base last) ∨
      ∀ text refuse d, (Disk.replaceFile (Path.join p.generation.output way) text refuse d).1 ≠ .ok () := by
  obtain ⟨ms, n, hi⟩ := Text.exists_splitOn_concat '/' way
  by_cases hn : Disk.isOwnName n = true
  · exact .inl (hs.straight hw h hi hn)
  · right
    intro text refuse d hok
    obtain ⟨front, hjoin, -⟩ := Path.exists_splitOn_join p.generation.output hw.isRelative
    rw [hi, ← List.append_assoc] at hjoin
    exact hn (Disk.isOwnName_of_replaceFile hok hjoin)

/-- Where a text was put below the output directory the way is one of plain names. -/
theorem plain_of_laid {way : Text} (hw : Path.Descends way) (h : Moves p d₀ dir name d₀ d)
    (hl : d.Laid (Path.join p.generation.output way) q) : Disk.Plain (Disk.wayTo (Path.join p.generation.output way)) := by
  obtain ⟨ms, n, hi⟩ := Text.exists_splitOn_concat '/' way
  obtain ⟨front, hjoin, -⟩ := Path.exists_splitOn_join p.generation.output hw.isRelative
  rw [hi, ← List.append_assoc] at hjoin
  obtain ⟨-, -, -, hn, -⟩ := (Disk.target_eq_ok_iff hjoin).1 hl.target
  obtain ⟨base, last, hstraight⟩ := hs.straight hw h hi hn
  exact hstraight.plain_wayTo

/-- What a run writes it can write again later, and what it cannot write it cannot write later either. -/
theorem replaceFile_inStep {way text : Text} {refuse : Bool} {r : Except Disk.WriteError Unit} (hw : Path.Descends way)
    (h : Moves p d₀ dir name d₀ d) (hd : Disk.replaceFile (Path.join p.generation.output way) text refuse d = (r, d'))
    (hm : Moves p d₀ dir name d d') (he : Moves p d₀ dir name d' e) : ∃ r' e',
      Disk.replaceFile (Path.join p.generation.output way) text refuse e = (r', e') ∧ r'.toOption = r.toOption ∧
        InStep d d' e e' := by
  have hk := hs.sameLinks h
  have hk' := hs.sameLinks (h.trans hm)
  have hke := hs.sameLinks ((h.trans hm).trans he)
  cases r with
  | ok _ =>
    rcases hs.straight_or hw h with ⟨base, last, hstraight⟩ | hnever
    · obtain ⟨e', he', hin⟩ := Disk.replaceFile_again hstraight.plain_wayTo hd (hk.symm.trans hk') he.inherits.later
        (hk'.symm.trans hke)
      exact ⟨.ok (), e', he', rfl, hin⟩
    · exact absurd (congrArg Prod.fst hd) (hnever _ _ _)
  | error x =>
    cases he' : Disk.replaceFile (Path.join p.generation.output way) text refuse e with
    | mk r' e' =>
      cases r' with
      | ok _ =>
        rcases hs.straight_or hw h with ⟨base, last, hstraight⟩ | hnever
        · have := hstraight.replaceFile_earlier (hm.trans he).inherits.later (hk.symm.trans hke) (congrArg Prod.fst he')
          rw [hd] at this
          cases this
        · exact absurd (congrArg Prod.fst he') (hnever _ _ _)
      | error x' =>
        exact ⟨_, e', rfl, rfl, Disk.inStep_of_eq (Disk.content?_replaceFile_of_error hd)
          (Disk.content?_replaceFile_of_error he')⟩

theorem replaceFile_moves {way : Text} (hw : Path.Descends way) (h : Moves p d₀ dir name d₀ d) (text : Text) (refuse : Bool) :
    Moves p d₀ dir name d (Disk.replaceFile (Path.join p.generation.output way) text refuse d).2 :=
  (hs.confined.replaceFile h.inherits List.mem_cons_self hw text refuse d (Evolves.refl _ _ d)).mono
    (fun _ => id) fun _ => .inl

theorem cleanFile_moves (w : Faults) (h : Moves p d₀ dir name d₀ d) (file : Text) (st : Statuses) :
    Moves p d₀ dir name d (cleanFile p.generation w file st d).2 :=
  ((hs.confined.withstands h.inherits w).cleanFile file st d (Evolves.refl _ _ d)).mono (fun _ => id) fun _ => .inl

theorem cleanFiles_moves (w : Faults) (h : Moves p d₀ dir name d₀ d) (es : List (Text × Statuses)) :
    Moves p d₀ dir name d (cleanFiles p.generation w es d).2 :=
  ((hs.confined.withstands h.inherits w).cleanFiles es d (Evolves.refl _ _ d)).mono (fun _ => id) fun _ => .inl

theorem writeBundle_moves (w : Faults) (h : Moves p d₀ dir name d₀ d) (cs : List Cleaned) :
    Moves p d₀ dir name d (writeBundle p.generation w cs d).2 :=
  ((hs.confined.withstands h.inherits w).writeBundle cs d (Evolves.refl _ _ d)).mono (fun _ => id) fun _ => .inl

/-- Backups go to their own directory. -/
theorem backUp_evolves (h : Moves p d₀ dir name d₀ d) (m : Backup.Moment) (l : Ledger) :
    Evolves anywhere (fun q => Written p d₀ dir name q ∧ ¬ p.generation.InOutput d₀ q) d
      (backUp p.generation m.stamp l d).2 := by
  unfold backUp
  cases hb : p.generation.backup with
  | none => exact Evolves.refl _ _ d
  | some folder =>
    -- a setup whose only directory is that of the backups
    let u : Setup := { p.generation with output := folder, backup := none }
    have hmem : folder ∈ p.generation.folders := by simp [Setup.folders, hb]
    have hroom {q : Place} (hq : u.Room d₀ q) : ∃ place, d₀.resolve folder = .ok place ∧ Disk.isBelow place q = true := by
      simpa [Setup.Room, Setup.folders, u] using hq
    have hconf : u.Confined d₀ :=
      ⟨fun f hf => by
        obtain rfl : f = folder := by simpa [Setup.folders, u] using hf
        exact hs.confined.resolves f hmem,
      fun q t hq => hs.confined.unlinked q t ⟨folder, hmem, hroom hq⟩, hs.confined.bundleName⟩
    have hu : folder ∈ u.folders := by simp [Setup.folders, u]
    have hcopy := Keeps.mapError RunError.badName (hconf.copyAll h.inherits hu m.descends_stamp
      (l.keys.filter (· ≠ SourceKey.inline)))
    refine (hcopy d (Evolves.refl _ _ d)).mono (fun _ => id) fun q hq => ?_
    obtain ⟨place, hplace, hbelow⟩ := hroom hq
    refine ⟨.inl ⟨folder, hmem, place, hplace, hbelow⟩, fun houtput => ?_⟩
    obtain ⟨out, hout, hq⟩ := houtput
    obtain ⟨hout', hin⟩ := hs.backups folder hb out place hout hplace
    simp [Disk.not_isBelow_of_isBelow hout' hin hq] at hbelow

theorem backUp_moves (h : Moves p d₀ dir name d₀ d) (m : Backup.Moment) (l : Ledger) :
    Moves p d₀ dir name d (backUp p.generation m.stamp l d).2 :=
  (hs.backUp_evolves h m l).mono (fun _ => id) fun _ => And.left

theorem content?_backUp (h : Moves p d₀ dir name d₀ d) (m : Backup.Moment) (l : Ledger)
    (hq : p.generation.InOutput d₀ q) : (backUp p.generation m.stamp l d).2.content? q = d.content? q :=
  (hs.backUp_evolves h m l).content?_eq fun hw => hw.2 hq

theorem prepare_eq (h : Moves p d₀ dir name d₀ d) (file : Text) (st : Statuses) :
    prepare p.generation w d file st = prepare p.generation w d₀ file st :=
  prepare_congr (hs.sameFiles h) file st

/-- A file that is cleaned to the same text fails again, or its text is written again. -/
theorem cleanFile_again {file : Text} {st st' : Statuses} {r : Except FileError Cleaned}
    (hst : prepare p.generation w d₀ file st' = prepare p.generation w d₀ file st) (h : Moves p d₀ dir name d₀ d)
    (hd : cleanFile p.generation w file st d = (r, d')) (hfatal : ∀ x, r ≠ .error (.fatal x))
    (he : Moves p d₀ dir name d' e) : ∃ r' e', cleanFile p.generation w file st' e = (r', e') ∧
      r'.toOption = r.toOption ∧ (∀ x, r' ≠ .error (.fatal x)) ∧ InStep d d' e e' := by
  have hm := hs.cleanFile_moves w h file st
  rw [hd] at hm
  have hpd : prepare p.generation w d file st = prepare p.generation w d₀ file st := hs.prepare_eq h file st
  have hpe : prepare p.generation w e file st' = prepare p.generation w d₀ file st :=
    (hs.prepare_eq ((h.trans hm).trans he) file st').trans hst
  cases hp : prepare p.generation w d₀ file st with
  | error x =>
    have hask (d : Disk) (st : Statuses) (hx : prepare p.generation w d file st = .error x) :
        cleanFile p.generation w file st d = (.error x, d) :=
      Disk.Action.bind_of_error (by rw [Disk.Action.ask, hx]) _
    obtain ⟨rfl, rfl⟩ := Prod.mk.inj ((hask d st (hpd.trans hp)).symm.trans hd)
    exact ⟨.error x, e, hask e st' (hpe.trans hp), rfl, hfatal, Disk.inStep_of_eq (fun _ => rfl) fun _ => rfl⟩
  | ok k =>
    obtain ⟨c, path⟩ := k
    obtain ⟨way, hway, rfl⟩ := exists_path_of_prepare hp
    obtain ⟨r₁, hr₁, hok₁, -⟩ := exists_cleanFile_of_prepare (hpd.trans hp) (Prod.eta _).symm
    obtain ⟨rfl, rfl⟩ := Prod.mk.inj (hr₁.symm.trans hd)
    obtain ⟨r₂, e', he', hok, hin⟩ := hs.replaceFile_inStep hway h (Prod.eta _).symm hm he
    obtain ⟨r', hr', hok₂, hfatal'⟩ := exists_cleanFile_of_prepare (hpe.trans hp) he'
    exact ⟨r', e', hr', by rw [hok₁, hok₂, hok], hfatal', hin⟩

/-- Files that are cleaned to the same texts come out of a later run as they did of an earlier one. -/
theorem cleanFiles_again {es es' : List (Text × Statuses)} {o : Outcome}
    (hes : List.Forall₂ (fun e e' => e'.1 = e.1 ∧
      prepare p.generation w d₀ e'.1 e'.2 = prepare p.generation w d₀ e.1 e.2) es es')
    (h : Moves p d₀ dir name d₀ d) (hd : cleanFiles p.generation w es d = (.ok o, d'))
    (he : Moves p d₀ dir name d' e) :
    ∃ o' e', cleanFiles p.generation w es' e = (.ok o', e') ∧ o'.cleaned = o.cleaned ∧ InStep d d' e e' := by
  induction hes generalizing d e o with
  | nil =>
    obtain ⟨ho, rfl⟩ := Prod.mk.inj hd
    exact ⟨o, e, by rw [← ho]; rfl, rfl, Disk.inStep_of_eq (fun _ => rfl) fun _ => rfl⟩
  | @cons a b es es' hab _ ih =>
    obtain ⟨hfile, hprepare⟩ := hab
    cases hc : cleanFile p.generation w a.1 a.2 d with
    | mk r d₁ =>
      obtain ⟨hfatal, o₁, ho₁, hcleaned⟩ := (cleanFiles_cons_eq_ok_iff hc).1 ⟨o, hd, rfl⟩
      have hm₁ := hs.cleanFile_moves w h a.1 a.2
      rw [hc] at hm₁
      have hm₂ := hs.cleanFiles_moves w (h.trans hm₁) es
      rw [ho₁] at hm₂
      rw [hfile] at hprepare
      obtain ⟨r', e₁, hc', hok, hfatal', hin⟩ := hs.cleanFile_again hprepare h hc hfatal (hm₂.trans he)
      have hm₃ := hs.cleanFile_moves w (((h.trans hm₁).trans hm₂).trans he) a.1 b.2
      rw [hc'] at hm₃
      obtain ⟨o₂, e₂, ho₂, hcs, hin'⟩ := ih (h.trans hm₁) ho₁ (he.trans hm₃)
      rw [← hfile] at hc'
      obtain ⟨o', ho', hcleaned'⟩ := (cleanFiles_cons_eq_ok_iff hc').2 ⟨hfatal', o₂, ho₂, rfl⟩
      exact ⟨o', e₂, ho', by rw [hcleaned', ← hcleaned, hok, hcs], hin.trans hin'⟩

theorem writeBundle_again {cs : List Cleaned} {css : Option Text} (h : Moves p d₀ dir name d₀ d)
    (hd : writeBundle p.generation w cs d = (.ok css, d')) (he : Moves p d₀ dir name d' e) :
    ∃ e', writeBundle p.generation w cs e = (.ok css, e') ∧ InStep d d' e e' := by
  have hm := hs.writeBundle_moves w h cs
  rw [hd] at hm
  by_cases hcs : cs.isEmpty = true
  · rw [writeBundle, if_pos hcs] at hd
    obtain ⟨ho, rfl⟩ := Prod.mk.inj hd
    refine ⟨e, by rw [writeBundle, if_pos hcs, ← ho]; rfl, Disk.inStep_of_eq (fun _ => rfl) fun _ => rfl⟩
  · have hcs' : cs ≠ [] := fun hn => hcs (List.isEmpty_iff.2 hn)
    obtain ⟨text, htext, hr⟩ := (writeBundle_eq_ok hd).resolve_left hcs'
    obtain ⟨r', e', he', hok, hin⟩ := hs.replaceFile_inStep hs.confined.bundleName h hr hm he
    obtain rfl : r' = .ok () := by
      cases r' with
      | ok _ => rfl
      | error x => cases hok
    have hcss := (writeBundle_of_ok hcs' htext hr).symm.trans hd
    rw [← (Prod.mk.inj hcss).1]
    exact ⟨e', writeBundle_of_ok hcs' htext he', hin⟩

/-- A run by a ledger that cleans every file as the ledger of an earlier run did gives the same result, and leaves
those places of the output as they are that still are as the earlier run left them. -/
theorem run_again {m : Backup.Moment} {l l' : Ledger} {r : Result}
    (hl : CleansAlike p.generation w d₀ l l') (h : Moves p d₀ dir name d₀ d)
    (hd : run p.generation w m.stamp l d = (.ok r, d')) (he : Moves p d₀ dir name d' e) (m' : Backup.Moment) :
    ∃ r' e', run p.generation w m'.stamp l' e = (.ok r', e') ∧ r'.files = r.files ∧ r'.statistics = r.statistics ∧
      ∀ q, p.generation.InOutput d₀ q → e.content? q = d'.content? q → e'.content? q = d'.content? q := by
  obtain ⟨failed, d₁, hb, hd⟩ := Disk.Action.bind_eq_ok hd
  obtain ⟨o, d₂, hc, hd⟩ := Disk.Action.bind_eq_ok hd
  obtain ⟨css, d₃, hw, hd⟩ := Disk.Action.bind_eq_ok hd
  obtain ⟨hr, rfl⟩ := Prod.mk.inj hd
  obtain rfl := Except.ok.inj hr
  have h₁ := hs.backUp_moves h m l
  rw [hb] at h₁
  have h₂ := hs.cleanFiles_moves w (h.trans h₁) (filesOf l)
  rw [hc] at h₂
  have h₃ := hs.writeBundle_moves w ((h.trans h₁).trans h₂) o.cleaned
  rw [hw] at h₃
  have he₀ := (((h.trans h₁).trans h₂).trans h₃).trans he
  obtain ⟨failed', hb'⟩ : ∃ failed', (backUp p.generation m'.stamp l' e).1 = .ok failed' := by
    refine exists_backUp_iff.2 ((exists_backUp_iff.1 ⟨failed, congrArg Prod.fst hb⟩).imp_right fun hn file hf b => ?_)
    rw [Site.locate_congr (hs.sameFiles he₀), ← Site.locate_congr (hs.sameFiles h)]
    exact hn file (hl.keys ▸ hf) b
  have hb' : backUp p.generation m'.stamp l' e = (.ok failed', (backUp p.generation m'.stamp l' e).2) := Prod.ext hb' rfl
  have he₁ := hs.backUp_moves he₀ m' l'
  obtain ⟨o', e₂, hc', hcs, hin⟩ := hs.cleanFiles_again hl.filesOf (h.trans h₁) hc (h₃.trans (he.trans he₁))
  have he₂ := hs.cleanFiles_moves w (he₀.trans he₁) (filesOf l')
  rw [hc'] at he₂
  obtain ⟨e₃, hw', hin'⟩ := hs.writeBundle_again ((h.trans h₁).trans h₂) hw ((he.trans he₁).trans he₂)
  refine ⟨⟨o'.cleaned.map Cleaned.file, failed' ++ o'.errors, .of o'.cleaned css⟩, e₃, ?_, by rw [hcs], by rw [hcs],
    fun q hq heq => ?_⟩
  · rw [run, Disk.Action.bind_of_ok hb', Disk.Action.bind_of_ok hc', hcs, Disk.Action.bind_of_ok hw']
    rfl
  · have hqe := hs.content?_backUp he₀ m' l' hq
    rcases (hin.trans hin') q with hd | ⟨hd, he⟩
    · exact hd
    · rw [he, hqe, heq]

end Service.Separate

end StylePrune
