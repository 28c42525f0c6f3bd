import StylePrune.Proofs.Accounting
import StylePrune.Proofs.Separation

/-!
What a backup holds. Into a directory that is not there yet go copies of the sheets and nothing else, each at its own
name below the site's root, so that every sheet is copied as it stands on the site or its copy is reported to have
failed. As long as the output does not lead back to the site, a run cleans no sheet that was not tried.
-/

set_option autoImplicit false

namespace StylePrune

namespace Disk

variable {d d' : Disk} {p dir : Place} {source path name : Text}

/-- A file that is put where a path leads is found there. -/
theorem open?_set_of_target {content : Bytes} {modified : Int} (ht : d.target path = .ok p)
    (hd : d.entry? p ≠ some .directory) (hl : ∀ t, d.entry? p ≠ some (.link t)) :
    (d.set p (.file content modified)).open? path = .ok (content, modified) := by
  have hp := ne_nil_of_target ht
  have hself : entry? (d.set p (.file content modified)) p = some (.file content modified) := by
    rw [entry?_set hp, if_pos rfl]
  have hkeep (q : Place) (t : Text) (hq : d.entry? q = some (.link t)) :
      entry? (d.set p (.file content modified)) q = some (.link t) := by
    rw [entry?_set hp, if_neg, hq]
    rintro rfl
    exact hl t hq
  have ht' := (later_set hp hd).target hkeep ht
  exact open?_eq_ok_iff.2 ⟨p, find_of_target ht' hself nofun, hself⟩

/-- What is read at a path that goes straight down is read as long as no file comes upon a link or there. -/
theorem Straight.open?_of_evolves {made written : Place → Prop} {f : Bytes × Int} (h : Straight d path dir name)
    (he : Evolves made written d d') (hl : ∀ p t, written p → d.entry? p ≠ some (.link t))
    (hn : ¬ written (dir ++ [name])) (ho : d.open? path = .ok f) : d'.open? path = .ok f := by
  obtain ⟨p, hp, hentry⟩ := open?_eq_ok_iff.1 ho
  obtain rfl := h.of_find hp
  exact open?_eq_ok_iff.2 ⟨_, he.find_eq_ok hl hp, he.entry?_of_some hn hentry⟩

/-- Copying to a path that goes straight down to no directory puts the file there or nothing anywhere. -/
theorem Straight.copyFile_cases {f : Bytes × Int} (h : Straight d path dir name)
    (hd : d.entry? (dir ++ [name]) ≠ some .directory) (ho : d.open? source = .ok f) :
    (∃ e, copyFile source path d = (.error e, d)) ∨ d.target path = .ok (dir ++ [name]) ∧
      copyFile source path d = (.ok (), d.set (dir ++ [name]) (.file f.1 f.2)) := by
  have hno : d.isDirectory path = false := by
    rw [Bool.eq_false_iff, Ne, isDirectory_iff]
    rintro ⟨p, hp, he⟩
    exact hd (h.of_find hp ▸ he)
  unfold copyFile
  simp only [ho, hno, Bool.false_eq_true, if_false, writeFile]
  cases ht : d.writeTarget maxLinks path with
  | error e => exact .inl ⟨e, rfl⟩
  | ok p =>
    have htarget := target_of_writeTarget ht fun q t hq => h.of_target hq ▸ h.ne_link t
    obtain rfl := h.of_target htarget
    exact .inr ⟨htarget, rfl⟩

end Disk

namespace Backup

open Disk (Straight Evolves anywhere)

variable {s : Site} {d₀ d d' : Disk} {directory file name : Text} {root base place : Place}

/-- A site, and a directory for its copies at a place at which there is nothing yet. Its path goes straight down. -/
structure Fresh (s : Site) (d : Disk) (directory : Text) (root base : Place) (name : Text) : Prop where
  rooted : d.Rooted
  resolves : d.resolve s.root = .ok root
  isDirectory : d.entry? root = some .directory
  straight : Straight d directory base name
  fresh : ∀ p, Disk.isBelow (base ++ [name]) p = true → d.entry? p = none
  outside : Disk.isBelow root (base ++ [name]) = false

/-- The path of a sheet's copy. -/
def target (directory : Text) (root place : Place) : Text :=
  Path.join directory (Path.relative (Disk.pathOf root) (Disk.pathOf place))

/-- Copies a file of the site, and makes the directories on the way. -/
def copyTo (directory : Text) (root place : Place) : Disk.Action Disk.Errno Unit := do
  Disk.makeDirectories (Path.names (Path.normalize (target directory root place))).dropLast
  Disk.copyFile (Disk.pathOf place) (target directory root place)

theorem copy_of_locate (hp : Site.locate s d file = .ok place) (hr : d.resolve s.root = .ok root) :
    copy s directory file d = match copyTo directory root place d with
      | (.ok _, d') => (.ok [], d')
      | (.error _, d') => (.ok [failed file], d') := by
  cases hto : copyTo directory root place d with
  | mk r d' =>
    simp only [copyTo, target] at hto
    simp only [copy, hp, hr, hto]
    cases r <;> rfl

/-- A disk on which nothing but copies has come below a directory: whatever is there stands at the same names below
the site's root. -/
structure Mirrors (d₀ : Disk) (root store : Place) (d : Disk) : Prop where
  evolves : Evolves anywhere (Disk.isBelow store · = true) d₀ d
  copied : ∀ ms e, d.entry? (store ++ ms) = some e → d₀.entry? (root ++ ms) = some e

namespace Fresh

variable (hf : Fresh s d₀ directory root base name)
include hf

theorem ne_link {p : Place} (hp : Disk.isBelow (base ++ [name]) p = true) (t : Text) : d₀.entry? p ≠ some (.link t) := by
  rw [hf.fresh p hp]
  nofun

theorem not_isBelow (hp : Disk.isBelow root place = true) : Disk.isBelow (base ++ [name]) place = false := by
  by_contra hb
  rw [Bool.not_eq_false, Disk.isBelow_iff] at hb
  rcases List.prefix_or_prefix_of_prefix (Disk.isBelow_iff.1 hp) hb with h | h
  · simpa [hf.outside] using Disk.isBelow_iff.2 h
  · simpa [hf.isDirectory] using hf.fresh root (Disk.isBelow_iff.2 h)

/-- A sheet that can be located is a file below the root. -/
theorem exists_of_locate (hl : Disk.Linkless d₀ place) (h : Site.locate s d₀ file = .ok place) :
    ∃ ms n f, place = root ++ (ms ++ [n]) ∧ Disk.Plain place ∧ d₀.entry? place = some (.file f.1 f.2) ∧
      d₀.open? (Disk.pathOf place) = .ok f := by
  obtain ⟨-, root', hroot, hplace, hbelow, hfile⟩ := Site.locate_eq_ok h
  obtain rfl := Except.ok.inj (hroot.symm.trans hf.resolves)
  have hplain := Disk.plain_of_resolve hplace
  obtain ⟨f, ho⟩ := Disk.isFile_iff.1 hfile
  obtain ⟨q, hq, he⟩ := Disk.open?_eq_ok_iff.1 ho
  obtain rfl := Disk.find_pathOf hplain hl hq
  obtain ⟨rest, rfl⟩ := Disk.isBelow_iff.1 hbelow
  rcases List.eq_nil_or_concat rest with rfl | ⟨ms, n, rfl⟩
  · rw [List.append_nil, hf.isDirectory] at he
    cases he
  · rw [List.concat_eq_append] at he ho hplain ⊢
    exact ⟨ms, n, f, rfl, hplain, he, ho⟩

theorem straight_target {ms : Place} {n : Text} (hp : Disk.Plain (root ++ (ms ++ [n]))) :
    Straight d₀ (target directory root (root ++ (ms ++ [n]))) (base ++ [name] ++ ms) n := by
  have hms : Disk.Plain (ms ++ [n]) := hp.of_append_right
  have hne : ms ++ [n] ≠ [] := by simp
  have hs : Text.splitOn '/' (Text.joinWith ['/'] (ms ++ [n])) = ms ++ [n] :=
    Text.splitOn_joinWith hne fun m hm => (hms m hm).2
  have hstraight := hf.straight.join (Path.descends_joinWith hne hms) hs (hms n (by simp)).1
    fun q t hq => hf.ne_link (Disk.isBelow_iff.2 hq) t
  rw [List.filter_eq_self.2 fun m hm => (hms m (List.mem_append_left _ hm)).1] at hstraight
  rwa [target, Path.relative_append hp, if_neg hne]

theorem mirrors : Mirrors d₀ root (base ++ [name]) d₀ :=
  ⟨Evolves.refl _ _ d₀, fun ms e he => by
    cases he.symm.trans (hf.fresh _ (Disk.isBelow_iff.2 (List.prefix_append _ ms)))⟩

/-- What a name resolves to is read as before as long as files come only below the directory for copies and below
another place where no link stands and the name does not lead. -/
theorem sameFile {written : Place → Prop} (h : Evolves anywhere written d₀ d)
    (hw : ∀ p t, written p → d₀.entry? p ≠ some (.link t))
    (hl : ∀ place, d₀.resolve (Path.join (Disk.pathOf root) file) = .ok place → Disk.isBelow root place = true →
      Disk.Linkless d₀ place ∧ ¬ written place) : s.SameFile d₀ d file := by
  refine ⟨h.sameLinks hw, fun root' place hr hp hb f => ?_⟩
  obtain rfl := Except.ok.inj (hr.symm.trans hf.resolves)
  obtain ⟨hlink, hn⟩ := hl place hp hb
  exact h.open?_pathOf_iff hf.rooted hw (Disk.plain_of_resolve hp) hlink hn

end Fresh

namespace Mirrors

variable {ms : Place} {n : Text} {f : Bytes × Int}

/-- Directories on the way to a copy are directories of the site. -/
theorem of_directories (h : Mirrors d₀ root (base ++ [name]) d) (hr : d₀.Rooted)
    (hfile : d₀.entry? (root ++ (ms ++ [n])) = some (.file f.1 f.2))
    (he : Evolves (· <+: base ++ [name] ++ ms) (fun _ => False) d d') : Mirrors d₀ root (base ++ [name]) d' := by
  refine ⟨h.evolves.trans (he.mono (fun _ _ => trivial) fun _ => False.elim), fun ns e hns => ?_⟩
  rcases he (base ++ [name] ++ ns) with hsame | ⟨hmade, -, hdir⟩ | ⟨hno, -⟩
  · exact h.copied ns e (hsame ▸ hns)
  · obtain rfl : Entry.directory = e := Option.some.inj (hdir.symm.trans hns)
    have hle : ns <+: ms := (List.prefix_append_right_inj _).1 hmade
    refine hr.isDirectory (by rw [hfile]; rfl) ((List.prefix_append_right_inj root).2 (hle.trans (List.prefix_append ms [n])))
      fun heq => ?_
    have hlength := hle.length_le
    rw [List.append_cancel_left heq, List.length_append, List.length_singleton] at hlength
    omega
  · exact hno.elim

/-- So is a copy. -/
theorem set (h : Mirrors d₀ root (base ++ [name]) d) (hfile : d₀.entry? (root ++ (ms ++ [n])) = some (.file f.1 f.2))
    (hd : d.entry? (base ++ [name] ++ ms ++ [n]) ≠ some .directory) :
    Mirrors d₀ root (base ++ [name]) (d.set (base ++ [name] ++ ms ++ [n]) (.file f.1 f.2)) := by
  have hne : base ++ [name] ++ ms ++ [n] ≠ [] := by simp
  have hbelow : Disk.isBelow (base ++ [name]) (base ++ [name] ++ ms ++ [n]) = true :=
    Disk.isBelow_iff.2 (by rw [List.append_assoc _ ms]; exact List.prefix_append _ _)
  refine ⟨h.evolves.trans (Evolves.set hne (.inr ⟨hbelow, hd, f.1, f.2, rfl⟩)), fun ns e hns => ?_⟩
  rw [Disk.entry?_set hne] at hns
  split at hns
  · rename_i heq
    rw [List.append_assoc _ ms, List.append_cancel_left_eq] at heq
    rw [heq, hfile, hns]
  · exact h.copied ns e hns

/-- What is copied once stays, whatever else is copied. -/
theorem open?_of_evolves {path : Text} (h : Mirrors d₀ root (base ++ [name]) d')
    (he : Evolves anywhere (Disk.isBelow (base ++ [name]) · = true) d d')
    (hl : ∀ p t, Disk.isBelow (base ++ [name]) p = true → d.entry? p ≠ some (.link t))
    (hs : Straight d path (base ++ [name] ++ ms) n) (hfile : d₀.entry? (root ++ (ms ++ [n])) = some (.file f.1 f.2))
    (ho : d.open? path = .ok f) : d'.open? path = .ok f := by
  obtain ⟨p, hp, hentry⟩ := Disk.open?_eq_ok_iff.1 ho
  obtain rfl := hs.of_find hp
  obtain ⟨content, modified, hlater⟩ := he.inherits.later.isFile hentry
  have hsite := h.copied (ms ++ [n]) _ (by rw [← List.append_assoc, hlater])
  rw [hfile] at hsite
  exact Disk.open?_eq_ok_iff.2 ⟨_, he.find_eq_ok hl hp, hlater.trans hsite.symm⟩

end Mirrors

/-- What a backup has made of a sheet: its copy failed, or it is there. -/
def Tried (s : Site) (d₀ : Disk) (directory : Text) (root : Place) (file : Text) (failures : List Text) (d : Disk) : Prop :=
  failed file ∈ failures ∨ ∀ place, Site.locate s d₀ file = .ok place →
    ∃ f, d₀.open? (Disk.pathOf place) = .ok f ∧ d.open? (target directory root place) = .ok f

/-- Of inline styles nothing is copied either. -/
theorem copyAll_cons (s : Site) (directory file : Text) (files : List Text) (d : Disk) :
    copyAll s directory (file :: files) d = (copy s directory file >>= fun errors =>
      copyAll s directory files >>= fun rest => pure (errors ++ rest)) d := by
  by_cases hi : file = SourceKey.inline
  · have hcopy : copy s directory file d = (.ok [], d) := by rw [copy, hi, Site.locate_inline]
    rw [copyAll, if_pos hi, Disk.Action.bind_of_ok hcopy]
    rfl
  · rw [copyAll, if_neg hi]

theorem copyAll_cons_eq_ok {files failures : List Text}
    (h : copyAll s directory (file :: files) d = (.ok failures, d')) : ∃ errors d₁ rest,
      copy s directory file d = (.ok errors, d₁) ∧ copyAll s directory files d₁ = (.ok rest, d') ∧
        failures = errors ++ rest := by
  rw [copyAll_cons] at h
  obtain ⟨errors, d₁, hcopy, h₁⟩ := Disk.Action.bind_eq_ok h
  obtain ⟨rest, d₂, hrest, h₂⟩ := Disk.Action.bind_eq_ok h₁
  obtain ⟨hfailures, rfl⟩ := Prod.mk.inj h₂
  exact ⟨errors, d₁, rest, hcopy, hrest, (Except.ok.inj hfailures).symm⟩

theorem Tried.mono {failures more : List Text} (h : Tried s d₀ directory root file failures d)
    (hm : failures ⊆ more) : Tried s d₀ directory root file more d := h.imp_left fun hf => hm hf

section Copying

variable (hf : Fresh s d₀ directory root base name)
include hf

theorem Mirrors.sameFile (hm : Mirrors d₀ root (base ++ [name]) d)
    (hl : ∀ place, d₀.resolve (Path.join (Disk.pathOf root) file) = .ok place → Disk.isBelow root place = true →
      Disk.Linkless d₀ place) : s.SameFile d₀ d file :=
  hf.sameFile hm.evolves (fun _ t hp => hf.ne_link hp t) fun place hp hb =>
    ⟨hl place hp hb, by simp [hf.not_isBelow hb]⟩

/-- Copying a file of the site to its own name makes a copy or fails. -/
theorem copyTo_mirrors {ms : Place} {n : Text} {f : Bytes × Int} (hm : Mirrors d₀ root (base ++ [name]) d)
    (hsame : s.SameFile d₀ d file) (hresolve : d₀.resolve (Path.join (Disk.pathOf root) file) = .ok (root ++ (ms ++ [n])))
    (hlink : Disk.Linkless d₀ (root ++ (ms ++ [n]))) (hfile : d₀.entry? (root ++ (ms ++ [n])) = some (.file f.1 f.2))
    (hopen : d₀.open? (Disk.pathOf (root ++ (ms ++ [n]))) = .ok f) {r : Except Disk.Errno Unit}
    (h : copyTo directory root (root ++ (ms ++ [n])) d = (r, d')) :
    Mirrors d₀ root (base ++ [name]) d' ∧ Evolves anywhere (Disk.isBelow (base ++ [name]) · = true) d d' ∧
      ((∃ e, r = .error e) ∨ r = .ok () ∧ d'.open? (target directory root (root ++ (ms ++ [n]))) = .ok f) := by
  have hplain := Disk.plain_of_resolve hresolve
  have hbelow : Disk.isBelow root (root ++ (ms ++ [n])) = true := Disk.isBelow_iff.2 (List.prefix_append _ _)
  have hstraight := hf.straight_target hplain
  cases hmake : Disk.makeDirectories (Path.names (Path.normalize (target directory root (root ++ (ms ++ [n]))))).dropLast d with
  | mk x d₁ =>
    have hdirs := (hstraight.later hm.evolves.inherits.later hsame.1).makeDirectories_evolves
    rw [hmake] at hdirs
    have hm₁ := hm.of_directories hf.rooted hfile hdirs
    have hstays : Evolves anywhere (Disk.isBelow (base ++ [name]) · = true) d d₁ :=
      hdirs.mono (fun _ _ => trivial) fun _ => False.elim
    cases x with
    | error e =>
      obtain ⟨rfl, rfl⟩ := Prod.mk.inj ((Disk.Action.bind_of_error hmake _).symm.trans h)
      exact ⟨hm₁, hstays, .inl ⟨e, rfl⟩⟩
    | ok _ =>
      rw [copyTo, Disk.Action.bind_of_ok hmake] at h
      have hsame₁ : s.SameFile d₀ d₁ file := hm₁.sameFile hf fun place hp _ => by
        obtain rfl := Except.ok.inj (hresolve.symm.trans hp)
        exact hlink
      have hopen₁ := (hsame₁.2 root _ hf.resolves hresolve hbelow f).2 hopen
      have hstraight₁ := hstraight.later hm₁.evolves.inherits.later hsame₁.1
      have hdir : d₁.entry? (base ++ [name] ++ ms ++ [n]) ≠ some .directory := by
        intro hd
        have hsite := hm₁.copied (ms ++ [n]) _ (by rw [← List.append_assoc, hd])
        rw [hfile] at hsite
        cases hsite
      rcases hstraight₁.copyFile_cases hdir hopen₁ with ⟨e, hcopy⟩ | ⟨htarget, hcopy⟩
      · obtain ⟨rfl, rfl⟩ := Prod.mk.inj (hcopy.symm.trans h)
        exact ⟨hm₁, hstays, .inl ⟨e, rfl⟩⟩
      · obtain ⟨rfl, rfl⟩ := Prod.mk.inj (hcopy.symm.trans h)
        have hput : Disk.isBelow (base ++ [name]) (base ++ [name] ++ ms ++ [n]) = true :=
          Disk.isBelow_iff.2 (by rw [List.append_assoc _ ms]; exact List.prefix_append _ _)
        exact ⟨hm₁.set hfile hdir, hstays.trans (Evolves.set (by simp) (.inr ⟨hput, hdir, f.1, f.2, rfl⟩)),
          .inr ⟨rfl, Disk.open?_set_of_target htarget hdir fun t => hstraight₁.ne_link t⟩⟩

/-- Copying one sheet. -/
theorem copy_mirrors {errors : List Text} (hm : Mirrors d₀ root (base ++ [name]) d)
    (hl : ∀ place, d₀.resolve (Path.join (Disk.pathOf root) file) = .ok place → Disk.isBelow root place = true →
      Disk.Linkless d₀ place) (h : copy s directory file d = (.ok errors, d')) :
    Mirrors d₀ root (base ++ [name]) d' ∧ Evolves anywhere (Disk.isBelow (base ++ [name]) · = true) d d' ∧
      Tried s d₀ directory root file errors d' := by
  have hsame := hm.sameFile hf hl
  cases hplace : Site.locate s d₀ file with
  | error x =>
    have htried (errors : List Text) (d : Disk) : Tried s d₀ directory root file errors d :=
      .inr fun place hp => by cases hplace.symm.trans hp
    rw [copy, hsame.locate_eq, hplace] at h
    cases x with
    | badName b => cases (Prod.mk.inj h).1
    | unavailable v =>
      obtain ⟨-, rfl⟩ := Prod.mk.inj h
      exact ⟨hm, Evolves.refl _ _ d, htried _ _⟩
  | ok place =>
    obtain ⟨-, root', hroot, hresolve, hbelow, -⟩ := Site.locate_eq_ok hplace
    obtain rfl := Except.ok.inj (hroot.symm.trans hf.resolves)
    have hlink := hl place hresolve hbelow
    obtain ⟨ms, n, f, rfl, -, hfile, hopen⟩ := hf.exists_of_locate hlink hplace
    have hcopy : copy s directory file d = _ := copy_of_locate (hsame.locate_eq.trans hplace)
      ((Disk.resolve_congr hsame.1 _).trans hf.resolves)
    cases hto : copyTo directory root' (root' ++ (ms ++ [n])) d with
    | mk r d₁ =>
      obtain ⟨hmirrors, hevolves, hend⟩ := copyTo_mirrors hf hm hsame hresolve hlink hfile hopen hto
      rw [hto] at hcopy
      rcases hend with ⟨e, rfl⟩ | ⟨rfl, hheld⟩
      · obtain ⟨herrors, rfl⟩ := Prod.mk.inj (hcopy.symm.trans h)
        exact ⟨hmirrors, hevolves, .inl (Except.ok.inj herrors ▸ List.mem_singleton_self _)⟩
      · obtain ⟨-, rfl⟩ := Prod.mk.inj (hcopy.symm.trans h)
        refine ⟨hmirrors, hevolves, .inr fun place hp => ?_⟩
        obtain rfl := Except.ok.inj (hplace.symm.trans hp)
        exact ⟨f, hopen, hheld⟩

/-- What was tried stays as it is while other sheets are copied. -/
theorem Tried.of_evolves {failures : List Text} (hm : Mirrors d₀ root (base ++ [name]) d)
    (hm' : Mirrors d₀ root (base ++ [name]) d') (he : Evolves anywhere (Disk.isBelow (base ++ [name]) · = true) d d')
    (hl : ∀ place, d₀.resolve (Path.join (Disk.pathOf root) file) = .ok place → Disk.isBelow root place = true →
      Disk.Linkless d₀ place) (h : Tried s d₀ directory root file failures d) :
    Tried s d₀ directory root file failures d' := by
  refine h.imp_right fun hheld place hplace => ?_
  obtain ⟨f, hopen, hcopy⟩ := hheld place hplace
  obtain ⟨-, root', hroot, hresolve, hbelow, -⟩ := Site.locate_eq_ok hplace
  obtain rfl := Except.ok.inj (hroot.symm.trans hf.resolves)
  obtain ⟨ms, n, g, rfl, hplain, hfile, hopen'⟩ := hf.exists_of_locate (hl place hresolve hbelow) hplace
  obtain rfl := Except.ok.inj (hopen.symm.trans hopen')
  have hsame := hm.sameFile hf hl
  have hstraight := (hf.straight_target hplain).later hm.evolves.inherits.later hsame.1
  exact ⟨f, hopen, hm'.open?_of_evolves he (fun p t hp ht => hf.ne_link hp t ((hsame.1 p t).1 ht)) hstraight hfile hcopy⟩

/-- After a backup every sheet was tried. -/
theorem copyAll_mirrors {files failures : List Text} (hm : Mirrors d₀ root (base ++ [name]) d)
    (hl : ∀ file ∈ files, ∀ place, d₀.resolve (Path.join (Disk.pathOf root) file) = .ok place →
      Disk.isBelow root place = true → Disk.Linkless d₀ place)
    (h : copyAll s directory files d = (.ok failures, d')) :
    Mirrors d₀ root (base ++ [name]) d' ∧ Evolves anywhere (Disk.isBelow (base ++ [name]) · = true) d d' ∧
      ∀ file ∈ files, Tried s d₀ directory root file failures d' := by
  induction files generalizing d failures with
  | nil =>
    obtain ⟨-, rfl⟩ := Prod.mk.inj h
    exact ⟨hm, Evolves.refl _ _ d, by simp⟩
  | cons file files ih =>
    obtain ⟨hlink, hlinks⟩ := List.forall_mem_cons.1 hl
    obtain ⟨errors, d₁, rest, hcopy, hrest, rfl⟩ := copyAll_cons_eq_ok h
    obtain ⟨hm₁, he₁, htried⟩ := copy_mirrors hf hm hlink hcopy
    obtain ⟨hm', he', hall⟩ := ih hm₁ hlinks hrest
    refine ⟨hm', he₁.trans he', List.forall_mem_cons.2 ⟨?_, fun f hmem => ?_⟩⟩
    · exact (htried.of_evolves hf hm₁ hm' he' hlink).mono (List.subset_append_left _ _)
    · exact (hall f hmem).mono (List.subset_append_right _ _)

end Copying

end Backup

namespace Generation

open Disk (Evolves anywhere)
open Disk.Action (Keeps)

variable {u : Setup} {w : Faults} {d d₁ d' : Disk} {l : Ledger} {directory dir moment file name : Text}
variable {root out base : Place}

/-- The site, the output and a directory for the copies of the site stand apart from one another. No link leads on
from the output, and none is left in what the files of the ledger resolve to. -/
structure Setup.Apart (u : Setup) (l : Ledger) (d : Disk) (directory : Text) (root out base : Place) (name : Text) :
    Prop where
  copies : Backup.Fresh u.site d directory root base name
  resolves : d.resolve u.output = .ok out
  confined : Setup.Confined { u with backup := none } d
  outside : Disk.isBelow root out = false ∧ Disk.isBelow out root = false
  aside : Disk.isBelow (base ++ [name]) out = false ∧ Disk.isBelow out (base ++ [name]) = false
  linkless : ∀ file ∈ l.keys, ∀ place, d.resolve (Path.join (Disk.pathOf root) file) = .ok place →
    Disk.isBelow root place = true → Disk.Linkless d place

namespace Setup.Apart

variable (ha : u.Apart l d directory root out base name)
include ha

theorem isBelow_of_room {p : Place} (hp : Setup.Room { u with backup := none } d p) : Disk.isBelow out p = true := by
  obtain ⟨folder, hfolder, place, hplace, hbelow⟩ := hp
  obtain rfl : folder = u.output := by simpa [Setup.folders] using hfolder
  obtain rfl := Except.ok.inj (hplace.symm.trans ha.resolves)
  exact hbelow

/-- While sheets are copied, and then cleaned, the files of the ledger stay as they are on the site. -/
theorem locate_eq (hm : Backup.Mirrors d root (base ++ [name]) d₁)
    (hs : Stays { u with backup := none } d d₁ d') (hk : file ∈ l.keys) :
    Site.locate u.site d' file = Site.locate u.site d file := by
  have hevolves : Evolves anywhere (fun p => Disk.isBelow (base ++ [name]) p = true ∨
      Setup.Room { u with backup := none } d p) d d' :=
    (hm.evolves.mono (fun _ => id) fun _ => .inl).trans (hs.mono (fun _ => id) fun _ => .inr)
  refine (ha.copies.sameFile hevolves (fun p t hp => ?_) fun place hp hb => ⟨ha.linkless file hk place hp hb, ?_⟩).locate_eq
  · exact hp.elim (fun hp => ha.copies.ne_link hp t) fun hp => ha.confined.unlinked p t hp
  · rintro (hp | hp)
    · simp [ha.copies.not_isBelow hb] at hp
    · have hout := Disk.not_isBelow_of_isBelow ha.outside.1 ha.outside.2 hb
      rw [ha.isBelow_of_room hp] at hout
      cases hout

/-- A copy stays while sheets are cleaned. -/
theorem tried (hm : Backup.Mirrors d root (base ++ [name]) d₁) (hs : Stays { u with backup := none } d d₁ d')
    (hk : file ∈ l.keys) {failures : List Text} (h : Backup.Tried u.site d directory root file failures d₁) :
    Backup.Tried u.site d directory root file failures d' := by
  refine h.imp_right fun hheld place hplace => ?_
  obtain ⟨f, hopen, hcopy⟩ := hheld place hplace
  obtain ⟨-, root', hroot, hresolve, hbelow, -⟩ := Site.locate_eq_ok hplace
  obtain rfl := Except.ok.inj (hroot.symm.trans ha.copies.resolves)
  obtain ⟨ms, n, -, rfl, hplain, -, -⟩ :=
    ha.copies.exists_of_locate (ha.linkless file hk place hresolve hbelow) hplace
  have hlinks := hm.evolves.sameLinks fun p t hp => ha.copies.ne_link hp t
  have hstraight := (ha.copies.straight_target hplain).later hm.evolves.inherits.later hlinks
  refine ⟨f, hopen, hstraight.open?_of_evolves hs (fun p t hp ht => ?_) (fun hp => ?_) hcopy⟩
  · exact ha.confined.unlinked p t hp ((hlinks p t).1 ht)
  · have hcopies : Disk.isBelow (base ++ [name]) (base ++ [name] ++ ms ++ [n]) = true :=
      Disk.isBelow_iff.2 (by rw [List.append_assoc _ ms]; exact List.prefix_append _ _)
    have hout := Disk.not_isBelow_of_isBelow ha.aside.1 ha.aside.2 hcopies
    rw [ha.isBelow_of_room hp] at hout
    cases hout

end Setup.Apart

theorem keys_of_mem_files {os : List Output} {fs : List (Text × FileError)} {r : Result}
    (h : r.Accounts u w l os fs) (hf : file ∈ r.files) : file ∈ l.keys ∧ file ≠ SourceKey.inline := by
  obtain ⟨hk, hi⟩ := List.mem_filter.1 (h.sublist.subset hf)
  exact ⟨hk, of_decide_eq_true hi⟩

/-- A file that cannot be located costs just the line that says why. -/
theorem eq_unavailable_of_cleanFile {st : Statuses} {v : Site.Unavailable} {x : FileError}
    (hv : Site.locate u.site d file = .error (.unavailable v)) (h : (cleanFile u w file st d).1 = .error x)
    (hm : ∀ y, x ≠ .fatal y) : x = .unavailable v := by
  have hread : Site.read u.site w.locked d file = .error (.unavailable v) := by rw [Site.read, hv]
  rcases cleanFile_error_cases (Prod.ext h rfl) with ⟨hp, -⟩ | ⟨c, path, e, hp, -⟩
  · rw [prepare, hread] at hp
    split at hp
    · exact absurd (Except.error.inj hp).symm (hm _)
    · exact (Except.error.inj hp).symm
  · rw [prepare, hread] at hp
    split at hp <;> cases hp

/-- Whatever a run cleans was copied before as it stood on the site, at its own name below the root, or its copy is
reported to have failed. A file that cannot be located is not cleaned, and its line says why. -/
theorem run_backs_up {r : Result} (hb : u.backup = some dir)
    (ha : u.Apart l d (Path.join dir moment) root out base name) (h : run u w moment l d = (.ok r, d')) :
    (∀ file ∈ r.files, Backup.failed file ∈ r.errors ∨ ∃ place f, Site.locate u.site d file = .ok place ∧
      d.open? (Disk.pathOf place) = .ok f ∧ d'.open? (Path.join (Path.join dir moment)
        (Path.relative (Disk.pathOf root) (Disk.pathOf place))) = .ok f) ∧
    ∀ file ∈ l.keys, file ≠ SourceKey.inline → ∀ x, Site.locate u.site d file = .error x →
      file ∉ r.files ∧ ∃ v, x = .unavailable v ∧ v.message file ∈ r.errors := by
  obtain ⟨failed, d₁, lines, hbackup, herrors, haccounts⟩ := exists_accounts_of_run h
  have hcopyAll : Backup.copyAll u.site (Path.join dir moment) (l.keys.filter (· ≠ SourceKey.inline)) d =
      (.ok failed, d₁) := by
    rw [backUp, hb] at hbackup
    exact Disk.Action.mapError_eq_ok hbackup
  obtain ⟨hm, -, htried⟩ := Backup.copyAll_mirrors ha.copies ha.copies.mirrors
    (fun file hf => ha.linkless file (List.mem_of_mem_filter hf)) hcopyAll
  have hconfined := ha.confined.withstands hm.evolves.inherits w
  have hwithstands : Withstands u w (Stays { u with backup := none } d d₁) := ⟨hconfined.cleaned, hconfined.bundle⟩
  have hstart : Stays { u with backup := none } d d₁ (backUp u moment l d).2 := by
    rw [hbackup]
    exact Evolves.refl _ _ d₁
  have hrun := hwithstands.run_of_backUp hstart
  rw [h] at hrun
  have hdisks := forall_outputs (fun file st => hwithstands.cleanFile file st) (filesOf l) (Evolves.refl _ _ d₁)
  have hlocated : ∀ file ∈ r.files, ∃ place, Site.locate u.site d file = .ok place := by
    intro file hf
    obtain ⟨hk, -⟩ := keys_of_mem_files haccounts hf
    obtain ⟨o, ho, rfl⟩ := List.mem_map.1 (haccounts.files ▸ hf)
    obtain ⟨_, place, _, _, _, -, hplace, -⟩ := haccounts.measured o ho
    exact ⟨place, (ha.locate_eq hm (hdisks o ho) hk).symm.trans hplace⟩
  refine ⟨fun file hf => ?_, fun file hk hi x hx => ?_⟩
  · obtain ⟨hk, hi⟩ := keys_of_mem_files haccounts hf
    obtain ⟨place, hplace⟩ := hlocated file hf
    rcases ha.tried hm hrun hk (htried file (List.mem_filter.2 ⟨hk, decide_eq_true hi⟩)) with hfailed | hheld
    · exact .inl (herrors ▸ List.mem_append_left _ hfailed)
    · obtain ⟨f, hopen, hcopy⟩ := hheld place hplace
      exact .inr ⟨place, f, hplace, hopen, hcopy⟩
  · have hn : file ∉ r.files := by
      intro hf
      obtain ⟨place, hplace⟩ := hlocated file hf
      cases hx.symm.trans hplace
    refine ⟨hn, ?_⟩
    cases x with
    | badName b =>
      have hnamed := (Backup.exists_copyAll_iff _).1 ⟨failed, congrArg Prod.fst hcopyAll⟩
      exact absurd hx (hnamed file (List.mem_filter.2 ⟨hk, decide_eq_true hi⟩) b)
    | unavailable v =>
      obtain ⟨y, hy⟩ := haccounts.mem_failures hk hi hn
      obtain ⟨_, d₂, o, _, _, hbackup', hcleaned, -, -⟩ := run_eq_ok h
      obtain rfl : d₁ = d₂ := congrArg Prod.snd (hbackup.symm.trans hbackup')
      have hmild := (errors_of_cleanFiles hcleaned).2 _ hy
      obtain ⟨st, d₃, -, hd₃, hfailure⟩ := failures_caused (fun file st => hwithstands.cleanFile file st)
        (P := fun _ => True) (fun _ _ => trivial) (Evolves.refl _ _ d₁) _ hy
      obtain rfl := eq_unavailable_of_cleanFile ((ha.locate_eq hm hd₃ hk).trans hx) hfailure hmild
      refine ⟨v, rfl, herrors ▸ List.mem_append_right _ ?_⟩
      have hlines : lines = (failures u w (filesOf l) d₁).map fun f => f.2.line f.1 := haccounts.errors
      exact hlines ▸ List.mem_map_of_mem hy

/-- The same site with a directory for backups. -/
def backed : Setup := { inner with backup := some "/b" }

/-- The copy of the file. -/
def copied : List (Place × Entry) :=
  [(["b"], .directory), (["b", "m"], .directory), (["b", "m", "a.css"], .file ".y\x7b\x7d".toUTF8.toList 0)]

theorem unlinked_copied : Disk.Unlinked (innerDisk copied) := by
  have hentries : (innerDisk copied).entries.entries = [((["s"] : Place), .directory),
      (["s", "a.css"], .file ".y\x7b\x7d".toUTF8.toList 0), (["b"], .directory), (["b", "m"], .directory),
      (["b", "m", "a.css"], .file ".y\x7b\x7d".toUTF8.toList 0)] := rfl
  exact Disk.unlinked_of_entries (by simp [hentries])

theorem apart_backed : backed.Apart partlyMissing (innerDisk []) (Path.join "/b" "m") ["s"] ["o"] ["b"] "m" := by
  have hentries : (innerDisk []).entries.entries =
      [((["s"] : Place), .directory), (["s", "a.css"], .file ".y\x7b\x7d".toUTF8.toList 0)] := rfl
  have hout : (innerDisk []).resolve "/o" = .ok [("o" : Text)] := unlinked_inner.resolve (by decide)
  refine ⟨⟨Disk.rooted_of_entries ?_, unlinked_inner.resolve (by decide), rfl, ?_, fun p hp => ?_, by decide⟩, hout,
    ⟨?_, fun p t _ => unlinked_inner p t, Path.descends_of_isOwnName (by decide) (by decide)⟩,
    ⟨by decide, by decide⟩, ⟨by decide, by decide⟩, fun _ _ _ _ _ q t _ => unlinked_inner q t⟩
  · rw [hentries]
    simp only [List.forall_mem_cons]
    exact ⟨rfl, rfl, by simp⟩
  · exact ⟨⟨[[]], ["b"], [], rfl, by decide, .stay rfl (.inl rfl) (.here _ _), rfl,
      fun q t _ _ => unlinked_inner q t⟩, by decide⟩
  · obtain ⟨ms, rfl⟩ := Disk.isBelow_iff.1 hp
    rw [Disk.entry?, if_neg (by simp), Option.eq_none_iff_forall_ne_some]
    intro e he
    have hmem := Table.mem_of_get? he
    rw [hentries] at hmem
    simp only [List.mem_cons, Prod.mk.injEq, List.cons_append, List.cons.injEq, List.not_mem_nil, or_false] at hmem
    rcases hmem with ⟨⟨hb, -⟩, -⟩ | ⟨⟨hb, -⟩, -⟩ <;> exact absurd hb (by decide)
  · intro folder hfolder
    obtain rfl : folder = backed.output := by simpa [Setup.folders] using hfolder
    exact ⟨_, hout⟩

theorem copyTo_backed : Backup.copyTo "/b/m" ["s"] ["s", "a.css"] (innerDisk []) = (.ok (), innerDisk copied) := by
  have htarget : Backup.target "/b/m" ["s"] ["s", "a.css"] = "/b/m/a.css" := rfl
  have hway : (Path.names (Path.normalize "/b/m/a.css")).dropLast = [("b" : Text), "m"] := rfl
  have hmake : Disk.makeDirectories [("b" : Text), "m"] (innerDisk []) =
      (.ok (), innerDisk [(["b"], .directory), (["b", "m"], .directory)]) := by cbv
  have hcopy : Disk.copyFile (Disk.pathOf ["s", "a.css"]) "/b/m/a.css"
      (innerDisk [(["b"], .directory), (["b", "m"], .directory)]) = (.ok (), innerDisk copied) := by cbv
  rw [Backup.copyTo, htarget, hway, Disk.Action.bind_of_ok hmake, hcopy]

theorem locate_inner : Site.locate inner.site (innerDisk []) "a.css" = .ok [("s" : Text), "a.css"] := by
  have hs : (innerDisk []).resolve inner.site.root = .ok [("s" : Text)] := unlinked_inner.resolve (by decide)
  have hf : (innerDisk []).resolve (Path.join (Disk.pathOf [("s" : Text)]) "a.css") = .ok [("s" : Text), "a.css"] :=
    unlinked_inner.resolve (by decide)
  obtain ⟨place, bytes, modified, hl, -⟩ := Site.read_eq_ok read_inner
  obtain ⟨-, root, hroot, hplace, -⟩ := Site.locate_eq_ok hl
  obtain rfl := Except.ok.inj (hs.symm.trans hroot)
  obtain rfl := Except.ok.inj (hf.symm.trans hplace)
  exact hl

theorem backUp_backed : backUp backed "m" partlyMissing (innerDisk []) = (.ok [], innerDisk copied) := by
  have hkeys : (Table.keys partlyMissing).filter (· ≠ SourceKey.inline) = [("c.css" : Text), "a.css"] := rfl
  have hroot : (innerDisk []).resolve backed.site.root = .ok [("s" : Text)] := unlinked_inner.resolve (by decide)
  have hmissing : Site.locate backed.site (innerDisk []) "c.css" = .error (.unavailable .missing) :=
    locate_missing unlinked_inner (by cbv)
  have hfirst : Backup.copy backed.site "/b/m" "c.css" (innerDisk []) = (.ok [], innerDisk []) := by
    rw [Backup.copy, hmissing]
  have hplace : Site.locate backed.site (innerDisk []) "a.css" = .ok [("s" : Text), "a.css"] := locate_inner
  have hsecond : Backup.copy backed.site "/b/m" "a.css" (innerDisk []) = (.ok [], innerDisk copied) := by
    rw [Backup.copy_of_locate hplace hroot, copyTo_backed]
  have hnil : Backup.copyAll backed.site "/b/m" [] (innerDisk copied) = (.ok [], innerDisk copied) := rfl
  have hrest : Backup.copyAll backed.site "/b/m" ["a.css"] (innerDisk []) = (.ok [], innerDisk copied) :=
    (Backup.copyAll_cons ..).trans ((Disk.Action.bind_of_ok hsecond _).trans (Disk.Action.bind_of_ok hnil _))
  have hall : Backup.copyAll backed.site "/b/m" ["c.css", "a.css"] (innerDisk []) = (.ok [], innerDisk copied) :=
    (Backup.copyAll_cons ..).trans ((Disk.Action.bind_of_ok hfirst _).trans (Disk.Action.bind_of_ok hrest _))
  rw [backUp, show backed.backup = some "/b" from rfl]
  simp only [hkeys]
  exact Disk.Action.mapError_of_ok hall _

theorem cleanFiles_backed : cleanFiles backed Faults.none (filesOf partlyMissing) (innerDisk copied) =
    (.ok ⟨[⟨"a.css", ".y\x7b\x7d", 4, 0⟩], ["File not found or unavailable: c.css"]⟩,
      innerDisk (copied ++ written ".y\x7b\x7d")) := by
  have hes : filesOf partlyMissing =
      [(("c.css" : Text), Table.empty), ("a.css", Table.ofList [((".y" : Text), Status.used)])] := rfl
  have hs : (innerDisk copied).resolve "/s" = .ok [("s" : Text)] := unlinked_copied.resolve (by decide)
  have hf : (innerDisk copied).resolve (Path.join "/s" "a.css") = .ok [("s" : Text), "a.css"] :=
    unlinked_copied.resolve (by decide)
  have hread : Site.read inner.site (fun _ => false) (innerDisk copied) "a.css" = .ok (".y\x7b\x7d", 4) :=
    read_of_unlinked unlinked_copied (by decide) (by decide) (by decide) rfl rfl
  have hprepare : prepare backed Faults.none (innerDisk copied) "a.css" (Table.ofList [(".y", .used)]) =
      .ok (⟨"a.css", ".y\x7b\x7d", 4, 0⟩, "/o/a.css") := prepare_inner (v := .used) hread (destination_inner hs hf)
  have hwrite : Disk.replaceFile "/o/a.css" ".y\x7b\x7d" false (innerDisk copied) =
      (.ok (), innerDisk (copied ++ written ".y\x7b\x7d")) := by cbv
  have hnil : cleanFiles backed Faults.none [] (innerDisk (copied ++ written ".y\x7b\x7d")) = (.ok ⟨[], []⟩, _) := rfl
  have hsheet := cleanFiles_cons_of_ok (e := ("a.css", Table.ofList [(".y", .used)]))
    (cleanFile_of_prepare hprepare hwrite) hnil
  have hl : Site.locate backed.site (innerDisk copied) "c.css" = .error (.unavailable .missing) :=
    locate_missing unlinked_copied (by cbv)
  have hmissing : cleanFile backed Faults.none "c.css" Table.empty (innerDisk copied) =
      (.error (.unavailable .missing), _) := cleanFile_of_unavailable rfl hl
  rw [hes]
  exact cleanFiles_cons_of_error (e := ("c.css", Table.empty)) hmissing (by simp) hsheet

theorem exists_run_backed : ∃ d', run backed Faults.none "m" partlyMissing (innerDisk []) =
    (.ok ⟨["a.css"], ["File not found or unavailable: c.css"], ⟨1, 2, true, 4, 4, 4, 0⟩⟩, d') := by
  have hb : bundle [⟨"a.css", ".y\x7b\x7d", 4, 0⟩] = .ok (".y\x7b\x7d" : Text) := by cbv
  obtain ⟨d', hr⟩ : ∃ d', Disk.replaceFile backed.bundlePath ".y\x7b\x7d" false
      (innerDisk (copied ++ written ".y\x7b\x7d")) = (.ok (), d') := ⟨_, Prod.ext (by cbv) rfl⟩
  rw [run, Disk.Action.bind_of_ok backUp_backed, Disk.Action.bind_of_ok cleanFiles_backed,
    Disk.Action.bind_of_ok (writeBundle_of_ok (w := Faults.none) (u := backed) (List.cons_ne_nil _ _) hb hr)]
  exact ⟨d', rfl⟩

/-- The cleaned sheet has its copy; of the missing one there is none, and it is not cleaned. -/
theorem backs_up_partlyMissing : ∃ r d', run backed Faults.none "m" partlyMissing (innerDisk []) = (.ok r, d') ∧
    (∃ f, (innerDisk []).open? "/s/a.css" = .ok f ∧ d'.open? "/b/m/a.css" = .ok f) ∧ ("c.css" : Text) ∉ r.files := by
  obtain ⟨d', h⟩ := exists_run_backed
  obtain ⟨hcopies, hmissing⟩ := run_backs_up rfl apart_backed h
  have hl : Site.locate backed.site (innerDisk []) "c.css" = .error (.unavailable .missing) :=
    locate_missing unlinked_inner (by cbv)
  refine ⟨_, d', h, ?_, (hmissing "c.css" (by decide) (by decide) _ hl).1⟩
  rcases hcopies "a.css" List.mem_cons_self with hfailed | ⟨place, f, hplace, hopen, hcopy⟩
  · exact absurd hfailed (by decide)
  · obtain rfl := Except.ok.inj (locate_inner.symm.trans hplace)
    exact ⟨f, hopen, hcopy⟩

end Generation
end StylePrune
