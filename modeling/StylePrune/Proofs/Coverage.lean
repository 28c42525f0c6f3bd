import StylePrune.Proofs.Repetition

/-!
What is left in the output directory after several runs. A file there is as it was at first, or a run has put a
cleaned text or a bundle there. As long as ledgers only gain files, a later run that writes all it can comes upon each
of those places again.
-/

set_option autoImplicit false

namespace StylePrune

namespace Disk

variable {d d' : Disk} {path text : Text} {p : Place}

/-- Where a text has been put the path leads again. -/
theorem Laid.putPlace (h : Laid d path p) (hp : Plain (wayTo path)) : d.putPlace path = .ok p := by
  have hm := makeDirectories_of_isDirectory hp h.way
  rw [wayTo] at hm
  rw [Disk.putPlace, hm, h.target]

end Disk

namespace Generation

variable {u : Setup} {w : Faults} {d d' : Disk} {file path : Text} {st : Statuses} {c : Cleaned} {locked : Text → Bool}

/-- A file that is read and parses, and the path of its output. -/
def Yields (u : Setup) (locked : Text → Bool) (d : Disk) (file path : Text) : Prop := ∃ css size sheet,
  Site.read u.site locked d file = .ok (css, size) ∧ Css.Sheet.parse css = .ok sheet ∧ u.destination d file = .ok path

theorem clean_of_parse {css : Text} {sheet : Css.Sheet} (h : Css.Sheet.parse css = .ok sheet) (st : Statuses) :
    clean st css = .ok ((sheet.prune st).1.render, (sheet.prune st).2) := by
  rw [clean, h]
  rfl

theorem yields_of_prepare (h : prepare u w d file st = .ok (c, path)) : Yields u w.locked d file path := by
  obtain ⟨hfile, st', css, -, hr, hc, hd⟩ := prepare_arises (l := Table.empty.insert file st)
    (by rw [Table.get?_insert, if_pos rfl]) h
  rw [hfile] at hr hd
  cases hp : Css.Sheet.parse css with
  | ok sheet => exact ⟨css, _, sheet, hr, hp, hd⟩
  | error e => simp [clean, hp, Except.map] at hc

theorem Yields.exists_prepare (h : Yields u w.locked d file path) (hl : w.late file = false) (st : Statuses) :
    ∃ c, prepare u w d file st = .ok (c, path) := by
  obtain ⟨css, size, sheet, hr, hp, hd⟩ := h
  exact ⟨_, by simp only [prepare, hl, Bool.false_eq_true, if_false, hr, clean_of_parse hp, hd]; rfl⟩

theorem Yields.exists_path (h : Yields u locked d file path) :
    ∃ way, Path.Descends way ∧ path = Path.join u.output way := by
  obtain ⟨c, hc⟩ := Yields.exists_prepare (w := ⟨locked, fun _ => false, fun _ => false⟩) h rfl Table.empty
  exact exists_path_of_prepare hc

theorem receives_of_cleanFile_error {x : FileError} (h : cleanFile u w file st d = (.error x, d')) :
    Disk.Receives d [] d' := by
  unfold cleanFile at h
  rcases Disk.Action.bind_eq_error h with hp | ⟨k, d₁, hp, h₁⟩
  · obtain ⟨-, rfl⟩ := Prod.mk.inj hp
    exact fun q => .inl rfl
  · obtain ⟨-, rfl⟩ := Disk.Action.ask_eq_ok hp
    rcases Disk.Action.bind_eq_error h₁ with hr | ⟨_, d₂, -, h₂⟩
    · obtain ⟨e, hr, -⟩ := Disk.Action.mapError_eq_error hr
      exact Disk.receives_of_replaceFile_error hr
    · cases (Prod.mk.inj h₂).1

/-- The text is what a ledger makes of a file. No rule that has a selector in use is missing. -/
def CleanedBy (u : Setup) (locked : Text → Bool) (d : Disk) (l : Ledger) (file path text : Text) : Prop :=
  ∃ st css size sheet, l.get? file = some st ∧ Site.read u.site locked d file = .ok (css, size) ∧
    Css.Sheet.parse css = .ok sheet ∧ u.destination d file = .ok path ∧ text = (sheet.prune st).1.render ∧
    ∀ a, st.get? a = some .used →
      (sheet.prune st).1.blocks.filter (a ∈ ·.selectors) = sheet.blocks.filter (a ∈ ·.selectors)

/-- The text is one that a run by a ledger puts at a path: what the ledger makes of a file, or the bundle of what it makes
of some files. -/
def Produces (u : Setup) (locked : Text → Bool) (d : Disk) (l : Ledger) (files : List Text) (path text : Text) : Prop :=
  (∃ file ∈ files, CleanedBy u locked d l file path text) ∨ path = u.bundlePath ∧ ∃ cs : List Cleaned,
    cs.map Cleaned.file = files ∧ bundle cs = .ok text ∧ ∀ c ∈ cs, ∃ path, CleanedBy u locked d l c.file path c.css

theorem cleanedBy_of_prepare {l : Ledger} (hf : l.get? file = some st) (h : prepare u w d file st = .ok (c, path)) :
    CleanedBy u w.locked d l c.file path c.css := by
  obtain ⟨hfile, st', css, hst, hr, hc, hd⟩ := prepare_arises hf h
  obtain ⟨css', size, sheet, hr', hp, -⟩ := yields_of_prepare h
  rw [hfile] at hst hr hd ⊢
  obtain ⟨rfl, -⟩ := Prod.mk.inj (Except.ok.inj (hr'.symm.trans hr))
  rw [clean_of_parse hp] at hc
  obtain ⟨hcss, -⟩ := Prod.mk.inj (Except.ok.inj hc)
  exact ⟨st', css', _, sheet, hst, hr, hp, hd, hcss.symm, fun a ha => sheet.filter_blocks_prune (by simp [ha])⟩

end Generation

namespace Service

open Disk (Laid Receives Put lastPut)
open Disk.Action (Keeps)
open Generation

variable {p : Deployment} {w : Faults} {locked : Text → Bool} {d d' d₀ : Disk} {dir q : Place} {name : Text}
variable {l l' : Ledger}

/-- Places at which a run by a ledger puts something: the output of a file, or the bundle if some file has output. -/
inductive Claimed (p : Deployment) (locked : Text → Bool) (d₀ d : Disk) (l : Ledger) (q : Place) : Prop
  | file {file path : Text} (known : (l.get? file).isSome) (yields : Yields p.generation locked d₀ file path)
      (laid : d.Laid path q)
  | bundle {file path : Text} {r : Place} (known : (l.get? file).isSome)
      (yields : Yields p.generation locked d₀ file path) (written : d.Laid path r)
      (laid : d.Laid p.generation.bundlePath q)

/-- Of the files in the output directory only those at claimed places are not as they were at first. -/
def Covered (p : Deployment) (locked : Text → Bool) (d₀ : Disk) (l : Ledger) (d : Disk) : Prop :=
  ∀ q, p.generation.InOutput d₀ q → d.content? q = d₀.content? q ∨ Claimed p locked d₀ d l q

/-- If texts come upon every claimed place, only files that were there at first are left beside them. -/
theorem Covered.content?_eq {qs : List Put} (hc : Covered p locked d₀ l d) (hr : Receives d qs d')
    (hall : ∀ q, Claimed p locked d₀ d l q → ∃ t ∈ qs, t.place = .ok q) (hq : p.generation.InOutput d₀ q) :
    d'.content? q = (lastPut qs q).elim (d₀.content? q) fun t => Utf8.encode? t.text := by
  rw [hr.content?_eq]
  cases hlast : lastPut qs q with
  | some t => rfl
  | none =>
    rcases hc q hq with he | hclaimed
    · exact he
    · obtain ⟨t, ht, hplace⟩ := hall q hclaimed
      have := Disk.isSome_lastPut ht hplace
      simp [hlast] at this

/-- The files in the output directory are the same. -/
def SameOutput (p : Deployment) (d₀ d d' : Disk) : Prop :=
  ∀ q, p.generation.InOutput d₀ q → d'.content? q = d.content? q

namespace Separate

variable (hs : Separate p d₀ dir name)
include hs

theorem laid_moves {path : Text} (h : Moves p d₀ dir name d₀ d) (hm : Moves p d₀ dir name d d') (hl : d.Laid path q) :
    d'.Laid path q := hl.later hm.inherits.later ((hs.sameLinks h).symm.trans (hs.sameLinks (h.trans hm)))

theorem claimed_moves (h : Moves p d₀ dir name d₀ d) (hm : Moves p d₀ dir name d d')
    (hk : ∀ file, (l.get? file).isSome → (l'.get? file).isSome) (hc : Claimed p locked d₀ d l q) :
    Claimed p locked d₀ d' l' q := by
  cases hc with
  | file known yields laid => exact .file (hk _ known) yields (hs.laid_moves h hm laid)
  | bundle known yields written laid =>
    exact .bundle (hk _ known) yields (hs.laid_moves h hm written) (hs.laid_moves h hm laid)

theorem covered_moves (h : Moves p d₀ dir name d₀ d) (hm : Moves p d₀ dir name d d') (ho : SameOutput p d₀ d d')
    (hk : ∀ file, (l.get? file).isSome → (l'.get? file).isSome) (hc : Covered p locked d₀ l d) :
    Covered p locked d₀ l' d' := by
  intro q hq
  rw [ho q hq]
  exact (hc q hq).imp_right (hs.claimed_moves h hm hk)

/-- A write keeps the disk covered if the place that it finds is claimed then. -/
theorem covered_replaceFile {way text : Text} {refuse : Bool} {r : Except Disk.WriteError Unit}
    (hw : Path.Descends way) (h : Moves p d₀ dir name d₀ d) (hc : Covered p locked d₀ l d)
    (hd : Disk.replaceFile (Path.join p.generation.output way) text refuse d = (r, d'))
    (hq : ∀ q, d'.Laid (Path.join p.generation.output way) q → Claimed p locked d₀ d' l q) :
    Moves p d₀ dir name d₀ d' ∧ Covered p locked d₀ l d' := by
  have hm : Moves p d₀ dir name d d' := by
    have := hs.replaceFile_moves hw h text refuse
    rwa [hd] at this
  refine ⟨h.trans hm, fun q hin => ?_⟩
  have hkeep := fun (hcontent : d'.content? q = d.content? q) =>
    hcontent ▸ (hc q hin).imp_right (hs.claimed_moves h hm fun _ => id)
  cases r with
  | error x => exact hkeep (Disk.content?_replaceFile_of_error hd q)
  | ok _ =>
    obtain ⟨place, content, d₁, hlaid, -, -, hd₁, rfl, hne⟩ :=
      Disk.laid_of_replaceFile hd ((hs.sameLinks h).symm.trans (hs.sameLinks (h.trans hm)))
    by_cases hplace : q = place
    · exact .inr (hq q (hplace ▸ hlaid))
    · exact hkeep (by rw [Disk.content?_set hne, if_neg hplace, hd₁.content?_eq id])

theorem keeps_cleanFile {file : Text} (hw : w.locked = locked) (hf : (l.get? file).isSome) (st : Statuses) :
    Keeps (fun d => Moves p d₀ dir name d₀ d ∧ Covered p locked d₀ l d) (cleanFile p.generation w file st) := by
  refine Keeps.bind_ask fun d k hp ⟨h, hc⟩ =>
    Keeps.bind_of (I := fun d => Moves p d₀ dir name d₀ d ∧ Covered p locked d₀ l d) ?_ fun _ _ _ h => h
  obtain ⟨c, path⟩ := k
  rw [hs.prepare_eq h] at hp
  have hy := yields_of_prepare hp
  obtain ⟨way, hway, rfl⟩ := exists_path_of_prepare hp
  exact hs.covered_replaceFile hway h hc (Prod.eta _).symm fun q hl => .file hf (hw ▸ hy) hl

/-- If files were written some output is there. -/
theorem exists_laid_of_cleanFiles {es : List (Text × Statuses)} {o : Outcome} (h : Moves p d₀ dir name d₀ d)
    (hd : cleanFiles p.generation w es d = (.ok o, d')) (ho : o.cleaned ≠ []) :
    ∃ e ∈ es, ∃ path q, Yields p.generation w.locked d₀ e.1 path ∧ d'.Laid path q := by
  induction es generalizing d o with
  | nil =>
    obtain ⟨hnil, -⟩ := Prod.mk.inj hd
    obtain rfl := Except.ok.inj hnil
    exact absurd rfl ho
  | cons e es ih =>
    cases hc : cleanFile p.generation w e.1 e.2 d with
    | mk r d₁ =>
      obtain ⟨-, o₁, ho₁, hcleaned⟩ := (cleanFiles_cons_eq_ok_iff hc).1 ⟨o, hd, rfl⟩
      have hm₁ := hs.cleanFile_moves w h e.1 e.2
      rw [hc] at hm₁
      have hm₂ := hs.cleanFiles_moves w (h.trans hm₁) es
      rw [ho₁] at hm₂
      cases r with
      | ok c =>
        obtain ⟨path, hp, hr⟩ := cleanFile_eq_ok hc
        obtain ⟨q, -, -, hlaid, -⟩ :=
          Disk.laid_of_replaceFile hr ((hs.sameLinks h).symm.trans (hs.sameLinks (h.trans hm₁)))
        rw [hs.prepare_eq h] at hp
        exact ⟨e, List.mem_cons_self, path, q, yields_of_prepare hp, hs.laid_moves (h.trans hm₁) hm₂ hlaid⟩
      | error x =>
        obtain ⟨e', he', hlaid⟩ := ih (h.trans hm₁) ho₁ fun hnil => ho (by rw [← hcleaned, hnil]; rfl)
        exact ⟨e', List.mem_cons_of_mem e he', hlaid⟩

/-- However a run ends, it comes upon places that are claimed by any ledger with the files of its own. -/
theorem covered_run (hw : w.locked = locked) (h : Moves p d₀ dir name d₀ d)
    (hk : ∀ file, (l'.get? file).isSome → (l.get? file).isSome) (hc : Covered p locked d₀ l d) (m : Backup.Moment) :
    Covered p locked d₀ l (run p.generation w m.stamp l' d).2 := by
  have hknown : ∀ e ∈ filesOf l', (l.get? e.1).isSome := fun e he =>
    hk e.1 (by rw [Table.get?_of_mem (List.mem_filter.1 he).1]; rfl)
  let I (d : Disk) : Prop := Moves p d₀ dir name d₀ d ∧ Covered p locked d₀ l d
  suffices I (run p.generation w m.stamp l' d).2 from this.2
  refine Keeps.bind_of (I := I) ⟨h.trans (hs.backUp_moves h m l'), ?_⟩ fun failed d₁ hb h₁ => ?_
  · exact hs.covered_moves h (hs.backUp_moves h m l') (fun q hq => hs.content?_backUp h m l' hq) (fun _ => id) hc
  have h₂ : I (cleanFiles p.generation w (filesOf l') d₁).2 :=
    keeps_cleanFiles (fun e he => hs.keeps_cleanFile hw (hknown e he) e.2) d₁ h₁
  refine Keeps.bind_of h₂ fun o d₂ ho h₂ => Keeps.bind_of ?_ fun _ _ _ h => h
  unfold writeBundle
  split
  · exact h₂
  · rename_i hcs
    cases hb : bundle o.cleaned with
    | error t => exact h₂
    | ok css =>
      refine Keeps.bind_of ?_ fun _ _ _ h => h
      obtain ⟨e, he, path, r, hy, hlaid⟩ := hs.exists_laid_of_cleanFiles h₁.1 ho (by simpa using hcs)
      have hmoves := hs.replaceFile_moves hs.confined.bundleName h₂.1 css (w.unwritable .bundle)
      exact hs.covered_replaceFile hs.confined.bundleName h₂.1 h₂.2 (Prod.eta _).symm fun q hq =>
        .bundle (hknown e he) (hw ▸ hy) (hs.laid_moves h₂.1 hmoves hlaid) hq

/-- Where output of a file was before it comes again, unless the file ends the run. -/
theorem exists_cleaned_of_laid {file path : Text} {st : Statuses} {res : Except FileError Cleaned}
    (hw : ∀ x, w.unwritable x = false) (h : Moves p d₀ dir name d₀ d) (hy : Yields p.generation w.locked d₀ file path)
    (hl : d.Laid path q) (hd : cleanFile p.generation w file st d = (res, d')) (hfatal : ∀ x, res ≠ .error (.fatal x)) :
    ∃ c, res = .ok c ∧ prepare p.generation w d₀ file st = .ok (c, path) ∧ Put.place ⟨d, path, c.css⟩ = .ok q := by
  have hlate : w.late file = false := by
    by_contra hlate
    have hp : prepare p.generation w d file st = .error (.fatal (.timedOut p.generation.budget)) := by
      rw [prepare, if_pos (by simpa using hlate)]
    exact hfatal _ (by rw [← cleanFile_eq_fatal_iff.2 hp, hd])
  obtain ⟨c, hp⟩ := hy.exists_prepare hlate st
  obtain ⟨way, hway, rfl⟩ := hy.exists_path
  have hplain := hs.plain_of_laid hway h hl
  obtain ⟨content, hcontent⟩ := Option.isSome_iff_exists.1 (isSome_encode?_of_prepare hp)
  have hr : Disk.replaceFile (Path.join p.generation.output way) c.css (w.unwritable (.cleaned file)) d =
      (.ok (), d.set q (.file content 0)) := by rw [hw, hl.replaceFile hplain hcontent]
  have hclean := cleanFile_of_prepare ((hs.prepare_eq h file st).trans hp) hr
  exact ⟨c, (Prod.mk.inj (hd.symm.trans hclean)).1, hp, hl.putPlace hplain⟩

/-- A run over files that gives a result puts the text of each file that is cleaned, also wherever output of the file was
before. -/
theorem exists_outputs_of_cleanFiles {es : List (Text × Statuses)} {o : Outcome} (hw : ∀ x, w.unwritable x = false)
    (h : Moves p d₀ dir name d₀ d) (hd : cleanFiles p.generation w es d = (.ok o, d')) : ∃ os : List Output,
      o.cleaned = os.map Output.cleaned ∧ Receives d (os.map Output.put) d' ∧
      (∀ x ∈ os, ∃ e ∈ es, prepare p.generation w d₀ e.1 e.2 = .ok (x.cleaned, x.path)) ∧
      ∀ e ∈ es, ∀ path r, Yields p.generation w.locked d₀ e.1 path → d.Laid path r → ∃ x ∈ os, x.put.place = .ok r := by
  induction es generalizing d o with
  | nil =>
    obtain ⟨hnil, rfl⟩ := Prod.mk.inj hd
    obtain rfl := Except.ok.inj hnil
    exact ⟨[], rfl, fun q => .inl rfl, List.forall_mem_nil _, List.forall_mem_nil _⟩
  | cons e es ih =>
    cases hc : cleanFile p.generation w e.1 e.2 d with
    | mk r d₁ =>
      obtain ⟨hfatal, o₁, ho₁, hcleaned⟩ := (cleanFiles_cons_eq_ok_iff hc).1 ⟨o, hd, rfl⟩
      have hm := hs.cleanFile_moves w h e.1 e.2
      rw [hc] at hm
      obtain ⟨os, hos, hrec, hprepared, hall⟩ := ih (h.trans hm) ho₁
      have hprepared : ∀ x ∈ os, ∃ e' ∈ e :: es, prepare p.generation w d₀ e'.1 e'.2 = .ok (x.cleaned, x.path) := by
        intro x hx
        obtain ⟨e', he', hp⟩ := hprepared x hx
        exact ⟨e', List.mem_cons_of_mem e he', hp⟩
      have hrest : ∀ e' ∈ es, ∀ path r, Yields p.generation w.locked d₀ e'.1 path → d.Laid path r →
          ∃ x ∈ os, x.put.place = .ok r := fun e' he' path r hy hl => hall e' he' path r hy (hs.laid_moves h hm hl)
      cases r with
      | ok c =>
        obtain ⟨path, hp, hr⟩ := cleanFile_eq_ok hc
        rw [hs.prepare_eq h] at hp
        refine ⟨⟨d, c, path⟩ :: os, ?_, (Disk.receives_of_replaceFile hr).trans hrec, ?_, ?_⟩
        · rw [← hcleaned, hos]
          rfl
        · exact List.forall_mem_cons.2 ⟨⟨e, List.mem_cons_self, hp⟩, hprepared⟩
        · refine List.forall_mem_cons.2 ⟨fun path' r hy hl => ?_, fun e' he' path' r hy hl => ?_⟩
          · obtain ⟨c', -, hp', hplace⟩ := hs.exists_cleaned_of_laid hw h hy hl hc hfatal
            obtain ⟨rfl, rfl⟩ := Prod.mk.inj (Except.ok.inj (hp.symm.trans hp'))
            exact ⟨_, List.mem_cons_self, hplace⟩
          · obtain ⟨x, hx, hplace⟩ := hrest e' he' path' r hy hl
            exact ⟨x, List.mem_cons_of_mem _ hx, hplace⟩
      | error x =>
        refine ⟨os, by rw [← hcleaned, hos]; rfl, (receives_of_cleanFile_error hc).trans hrec, hprepared, ?_⟩
        refine List.forall_mem_cons.2 ⟨fun path r hy hl => ?_, hrest⟩
        obtain ⟨c, hx, -⟩ := hs.exists_cleaned_of_laid hw h hy hl hc hfatal
        cases hx

/-- After a run that gives a result a place in the output has the last text that the run put there, and where it put none
the file is there that was there at first. -/
theorem exists_puts_of_run {m : Backup.Moment} {res : Result} (hw : ∀ x, w.unwritable x = false)
    (h : Moves p d₀ dir name d₀ d) (hc : Covered p w.locked d₀ l d)
    (hd : run p.generation w m.stamp l d = (.ok res, d')) : ∃ qs : List Put,
      (∀ t ∈ qs, Produces p.generation w.locked d₀ l res.files t.path t.text) ∧
      ∀ q, p.generation.InOutput d₀ q →
        d'.content? q = (lastPut qs q).elim (d₀.content? q) fun t => Utf8.encode? t.text := by
  obtain ⟨failed, d₁, hb, hd⟩ := Disk.Action.bind_eq_ok hd
  obtain ⟨o, d₂, ho, hd⟩ := Disk.Action.bind_eq_ok hd
  obtain ⟨css, d₃, hbundle, hd⟩ := Disk.Action.bind_eq_ok hd
  obtain ⟨hres, rfl⟩ := Prod.mk.inj hd
  obtain rfl := Except.ok.inj hres
  have h₁ := hs.backUp_moves h m l
  have hc₁ := hs.covered_moves h h₁ (fun q hq => hs.content?_backUp h m l hq) (fun _ => id) hc
  rw [hb] at h₁ hc₁
  have h₂ := hs.cleanFiles_moves w (h.trans h₁) (filesOf l)
  rw [ho] at h₂
  obtain ⟨os, hos, hrec, hprepared, hall⟩ := hs.exists_outputs_of_cleanFiles hw (h.trans h₁) ho
  have hby : ∀ x ∈ os, CleanedBy p.generation w.locked d₀ l x.cleaned.file x.path x.cleaned.css := by
    intro x hx
    obtain ⟨e, he, hp⟩ := hprepared x hx
    exact cleanedBy_of_prepare (Table.get?_of_mem (List.mem_filter.1 he).1) hp
  have hfiles : ∀ t ∈ os.map Output.put, Produces p.generation w.locked d₀ l (o.cleaned.map Cleaned.file) t.path t.text := by
    refine List.forall_mem_map.2 fun x hx => .inl ⟨x.cleaned.file, ?_, hby x hx⟩
    rw [hos, List.map_map]
    exact List.mem_map_of_mem hx
  have hsheets : ∀ c ∈ o.cleaned, ∃ path, CleanedBy p.generation w.locked d₀ l c.file path c.css := by
    rw [hos]
    exact List.forall_mem_map.2 fun x hx => ⟨x.path, hby x hx⟩
  -- where output of a file was the file has been put again
  have hagain {file path : Text} {r : Place} (known : (l.get? file).isSome)
      (yields : Yields p.generation w.locked d₀ file path) (laid : d₁.Laid path r) :
      ∃ t ∈ os.map Output.put, t.place = .ok r := by
    obtain ⟨st, hst⟩ := Option.isSome_iff_exists.1 known
    have hi : file ≠ SourceKey.inline := by
      obtain ⟨_, _, _, hread, -⟩ := yields
      obtain ⟨_, _, _, hl, -⟩ := Site.read_eq_ok hread
      exact (Site.locate_eq_ok hl).1
    obtain ⟨x, hx, hplace⟩ :=
      hall (file, st) (List.mem_filter.2 ⟨Table.mem_of_get? hst, by simpa using hi⟩) path r yields laid
    exact ⟨x.put, List.mem_map_of_mem hx, hplace⟩
  rcases writeBundle_eq_ok hbundle with hnil | ⟨text, htext, hr⟩
  · have hd₃ : d₂ = d₃ := by
      rw [hnil] at hbundle
      exact (Prod.mk.inj hbundle).2
    subst hd₃
    have hosnil : os.map Output.put = [] := by
      rw [hos, List.map_eq_nil_iff] at hnil
      rw [hnil, List.map_nil]
    refine ⟨os.map Output.put, hfiles, fun q hq => hc₁.content?_eq hrec (fun r hr => ?_) hq⟩
    cases hr with
    | file known yields laid => exact hagain known yields laid
    | bundle known yields written laid =>
      obtain ⟨t, ht, -⟩ := hagain known yields written
      rw [hosnil] at ht
      cases ht
  · have hputs := hrec.trans (Disk.receives_of_replaceFile hr)
    refine ⟨os.map Output.put ++ [⟨d₂, p.generation.bundlePath, text⟩], ?_, fun q hq =>
      hc₁.content?_eq hputs (fun r hr => ?_) hq⟩
    · exact List.forall_mem_append.2 ⟨hfiles, List.forall_mem_singleton.2 (.inr ⟨rfl, o.cleaned, rfl, htext, hsheets⟩)⟩
    · cases hr with
      | file known yields laid =>
        obtain ⟨t, ht, hplace⟩ := hagain known yields laid
        exact ⟨t, List.mem_append_left _ ht, hplace⟩
      | bundle known yields written laid =>
        have hlaid := hs.laid_moves (h.trans h₁) h₂ laid
        have hplain := hs.plain_of_laid hs.confined.bundleName ((h.trans h₁).trans h₂) hlaid
        have hplace : Put.place ⟨d₂, p.generation.bundlePath, text⟩ = .ok r := hlaid.putPlace hplain
        exact ⟨⟨d₂, p.generation.bundlePath, text⟩, List.mem_append_right _ List.mem_cons_self, hplace⟩

end Separate

end Service
end StylePrune
