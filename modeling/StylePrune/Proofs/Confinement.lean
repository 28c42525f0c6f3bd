import StylePrune.Proofs.Disk.Evolving
import StylePrune.Proofs.Output
import StylePrune.Proofs.Site

/-!
Where generation writes. As long as no link stands below the directories for its output and its backups, and the
names that it makes there do not go up, everything that it writes stays below them.
-/

set_option autoImplicit false

namespace StylePrune

theorem Text.slash_not_mem_digits (base n : Nat) : CodePoint.char '/' ∉ Text.digits base n := by
  have core (fuel n : Nat) (ds : List Char) (hd : '/' ∉ ds) : '/' ∉ Nat.toDigitsCore base fuel n ds := by
    induction fuel generalizing n ds with
    | zero => exact hd
    | succ fuel ih =>
      have hcons : '/' ∉ Nat.digitChar (n % base) :: ds :=
        mt List.mem_cons.1 (not_or.2 ⟨(Nat.digitChar_ne '/' (by decide)).symm, hd⟩)
      rw [Nat.toDigitsCore]
      split
      · exact hcons
      · exact ih _ _ hcons
  rw [Text.digits, List.mem_map]
  rintro ⟨c, hc, hslash⟩
  obtain rfl := CodePoint.char.inj hslash
  exact core _ _ _ List.not_mem_nil hc

theorem Text.slash_not_mem_padded (w n : Nat) : CodePoint.char '/' ∉ Text.padded w n := by
  rw [Text.padded, List.leftpad, List.mem_append, not_or]
  exact ⟨fun h => absurd (List.eq_of_mem_replicate h) (by decide), Text.slash_not_mem_digits 10 n⟩

/-- Every moment names a directory of its own. -/
theorem Backup.Moment.descends_stamp (m : Moment) : Path.Descends m.stamp := by
  have hs : CodePoint.char '/' ∉ m.stamp := by
    simp only [stamp, List.mem_append, List.mem_cons, not_or]
    simp [Text.slash_not_mem_padded, Text.slash_not_mem_digits, Text.ofNat]
  refine ⟨Path.isAbsolute_of_not_mem hs, ?_⟩
  rw [Text.splitOn_of_not_mem hs, List.mem_singleton]
  intro h
  have hdash : CodePoint.char '-' ∈ m.stamp := by simp [stamp]
  rw [← h] at hdash
  exact absurd hdash (by decide)

namespace Generation

open Disk (Action Evolves Inherits anywhere)
open Disk.Action (Keeps)

variable {u : Setup} {w : Faults} {d d₀ d₁ d' : Disk} {p : Place} {moment : Text}

theorem keeps_cleanInVain {I : Disk → Prop} {es : List (Text × Statuses)}
    (h : ∀ e ∈ es, Keeps I (cleanFile u w e.1 e.2)) : Keeps I (cleanInVain u w es) := by
  induction es with
  | nil => exact Keeps.pure ()
  | cons e es ih =>
    obtain ⟨he, hes⟩ := List.forall_mem_cons.1 h
    exact Keeps.bind (Keeps.attempt he) fun _ => ih hes

/-- What cleaning each file keeps cleaning all of them keeps. -/
theorem keeps_cleanFiles {I : Disk → Prop} {es : List (Text × Statuses)}
    (h : ∀ e ∈ es, Keeps I (cleanFile u w e.1 e.2)) : Keeps I (cleanFiles u w es) := by
  induction es with
  | nil => exact Keeps.pure _
  | cons e es ih =>
    obtain ⟨he, hes⟩ := List.forall_mem_cons.1 h
    refine Keeps.bind (Keeps.attempt he) fun r => ?_
    match r with
    | .ok c => exact Keeps.bind (ih hes) fun _ => Keeps.pure _
    | .error (.fatal x) =>
      exact Keeps.bind (keeps_cleanInVain fun e he => hes e (List.mem_of_mem_take he)) fun _ => Keeps.throw x
    | .error (.unavailable _) | .error (.illFormed _) | .error (.notWritten _) =>
      exact Keeps.bind (ih hes) fun _ => Keeps.pure _

/-- A property of the disk that no write of a run undoes. -/
structure Withstands (u : Setup) (w : Faults) (I : Disk → Prop) : Prop where
  cleaned : ∀ d file st c path, prepare u w d file st = .ok (c, path) → I d →
    I (Disk.replaceFile path c.css (w.unwritable (.cleaned file)) d).2
  bundle : ∀ d cs css, Generation.bundle cs = .ok css → I d →
    I (Disk.replaceFile u.bundlePath css (w.unwritable .bundle) d).2

namespace Withstands

variable {I : Disk → Prop} (hi : Withstands u w I)
include hi

theorem cleanFile (file : Text) (st : Statuses) : Keeps I (cleanFile u w file st) := Keeps.bind_ask fun d p hp hd =>
  Keeps.bind_of (hi.cleaned d file st p.1 p.2 hp hd) fun _ _ _ h => h

theorem cleanInVain (es : List (Text × Statuses)) : Keeps I (cleanInVain u w es) :=
  keeps_cleanInVain fun e _ => hi.cleanFile e.1 e.2

theorem cleanFiles (es : List (Text × Statuses)) : Keeps I (cleanFiles u w es) :=
  keeps_cleanFiles fun e _ => hi.cleanFile e.1 e.2

theorem writeBundle (cs : List Cleaned) : Keeps I (writeBundle u w cs) := by
  intro d hd
  unfold Generation.writeBundle
  split
  · exact hd
  · cases hb : Generation.bundle cs with
    | error t => exact hd
    | ok css => exact Keeps.bind_of (hi.bundle d cs css hb hd) fun _ _ _ h => h

/-- However the run ends, the property is still there, if the backup keeps it. -/
theorem run {l : Ledger} (hb : Keeps I (backUp u moment l)) : Keeps I (run u w moment l) :=
  Keeps.bind hb fun _ => Keeps.bind (hi.cleanFiles _) fun _ => Keeps.bind (hi.writeBundle _) fun _ => Keeps.pure _

end Withstands

/-- The directories below which generation writes. -/
def Setup.folders (u : Setup) : List Text := u.output :: u.backup.toList

/-- Places at and below those directories. -/
def Setup.Room (u : Setup) (d : Disk) (p : Place) : Prop :=
  ∃ folder ∈ u.folders, ∃ place, d.resolve folder = .ok place ∧ Disk.isBelow place p = true

/-- No link leads out of the directories for output and backups, and no name does. -/
structure Setup.Confined (u : Setup) (d : Disk) : Prop where
  resolves : ∀ folder ∈ u.folders, ∃ place, d.resolve folder = .ok place
  unlinked : ∀ p t, u.Room d p → d.entry? p ≠ some (.link t)
  bundleName : Path.Descends u.bundleName

/-- What generation may have made of a disk `d₁`, which has no links but those of `d₀`. -/
abbrev Stays (u : Setup) (d₀ d₁ d : Disk) : Prop := Evolves anywhere (u.Room d₀) d₁ d

theorem Stays.makeDirectories (p : Place) : Keeps (Stays u d₀ d₁) (Disk.makeDirectories p) := fun d h =>
  h.trans ((Disk.makeDirectories_evolves p d fun _ _ _ _ _ _ _ => trivial).mono (fun _ => id) fun _ => False.elim)

namespace Setup.Confined

variable (hc : u.Confined d₀)
include hc

/-- What is put below one of the directories is put in their room. -/
theorem room_of_target (hs : Inherits d₀ d) {folder name : Text} (hf : folder ∈ u.folders) (hn : Path.Descends name)
    (h : d.target (Path.join folder name) = .ok p) : u.Room d₀ p := by
  obtain ⟨q, hq, hd, hbelow⟩ := Disk.exists_of_target_join h hn
  obtain ⟨place, hplace⟩ := hc.resolves folder hf
  obtain rfl := Disk.eq_of_leads_of_resolve hs hq hd hplace
  exact ⟨folder, hf, place, hplace, hbelow fun r t hr he =>
    hc.unlinked r t ⟨folder, hf, place, hplace, hr⟩ (hs.link r t he)⟩

variable (hl : Inherits d₀ d₁)
include hl

theorem replaceFile {folder name : Text} (hf : folder ∈ u.folders) (hn : Path.Descends name) (text : Text)
    (refuse : Bool) : Keeps (Stays u d₀ d₁) (Disk.replaceFile (Path.join folder name) text refuse) := fun d h =>
  h.trans (Disk.replaceFile_evolves (Disk.makeDirectories_evolves _ d fun _ _ _ _ _ _ _ => trivial)
    (fun _ _ hs ht => hc.room_of_target ((hl.trans h.inherits).trans hs.inherits) hf hn ht) rfl)

theorem writeFile {folder name : Text} (hf : folder ∈ u.folders) (hn : Path.Descends name) (content : Bytes)
    (modified : Int) : Keeps (Stays u d₀ d₁) (Disk.writeFile (Path.join folder name) content modified) := by
  intro d h
  have hs := hl.trans h.inherits
  refine h.trans (Disk.writeFile_evolves fun p hp => ?_)
  refine hc.room_of_target hs hf hn (Disk.target_of_writeTarget hp fun q t hq he => ?_)
  exact hc.unlinked q t (hc.room_of_target hs hf hn hq) (hs.link q t he)

end Setup.Confined

/-- The cleaned form of a file of the site is written at a path that goes on down from the output directory. -/
theorem exists_name_of_destination {file path : Text} {place : Place} (hl : Site.locate u.site d file = .ok place)
    (hd : u.destination d file = .ok path) : ∃ name, name ≠ [] ∧ Path.Descends name ∧ path = Path.join u.output name := by
  obtain ⟨-, root, hroot, hplace, hbelow, -⟩ := Site.locate_eq_ok hl
  simp only [Setup.destination, hroot, hplace, bind, Except.bind, pure, Except.pure] at hd
  have hplain := Disk.plain_of_resolve hplace
  exact ⟨_, Path.relative_ne_nil hbelow hplain, Path.descends_relative hbelow hplain, (Except.ok.inj hd).symm⟩

theorem Output.Arises.exists_name {l : Ledger} {o : Output} (h : o.Arises u w l) :
    ∃ name, name ≠ [] ∧ Path.Descends name ∧ o.path = Path.join u.output name := by
  obtain ⟨st, css, -, hr, -, hd⟩ := h
  obtain ⟨place, _, _, hl, -⟩ := Site.read_eq_ok hr
  exact exists_name_of_destination hl hd

/-- The path of an output goes on down from the output directory. -/
theorem Output.Arises.exists_path {l : Ledger} {o : Output} (h : o.Arises u w l) :
    ∃ name, Path.Descends name ∧ o.path = Path.join u.output name := by
  obtain ⟨name, -, hn, hp⟩ := h.exists_name
  exact ⟨name, hn, hp⟩

theorem exists_path_of_prepare {file path : Text} {st : Statuses} {c : Cleaned}
    (h : prepare u w d file st = .ok (c, path)) : ∃ name, Path.Descends name ∧ path = Path.join u.output name :=
  (prepare_arises (l := Table.empty.insert file st) (by rw [Table.get?_insert, if_pos rfl]) h).2.exists_path

/-- A source's own name goes down. -/
theorem descends_split_snd {p : Place} (hp : Disk.Plain p) : Path.Descends (Path.split (Disk.pathOf p)).2 := by
  by_cases hn : p = []
  · subst hn
    exact ⟨rfl, by decide⟩
  · obtain ⟨ns, i, j, hs, -⟩ := Path.exists_split (Disk.pathOf p)
    rw [Disk.splitOn_pathOf hn hp] at hs
    have hmem : (Path.split (Disk.pathOf p)).2 ∈ [] :: p := hs ▸ List.mem_append_right _ List.mem_cons_self
    rcases List.mem_cons.1 hmem with hnil | hmem
    · rw [hnil]
      exact ⟨rfl, by decide⟩
    · exact Path.descends_of_isOwnName (hp _ hmem).1 (hp _ hmem).2

namespace Setup.Confined

variable (hc : u.Confined d₀) (hl : Inherits d₀ d₁)
include hc hl

theorem withstands (w : Faults) : Withstands u w (Stays u d₀ d₁) where
  cleaned d file st c path hp := by
    obtain ⟨name, hn, rfl⟩ := exists_path_of_prepare hp
    exact hc.replaceFile hl List.mem_cons_self hn _ _ d
  bundle d _ _ _ := hc.replaceFile hl List.mem_cons_self hc.bundleName _ _ d

theorem copyFile {folder name : Text} (hf : folder ∈ u.folders) (hn : Path.Descends name) {place : Place}
    (hp : Disk.Plain place) : Keeps (Stays u d₀ d₁) (Disk.copyFile (Disk.pathOf place) (Path.join folder name)) := by
  intro d h
  unfold Disk.copyFile
  split
  · exact h
  · split
    · rw [Path.join_assoc _ hn.isRelative (descends_split_snd hp).isRelative]
      exact hc.writeFile hl hf (hn.join (descends_split_snd hp)) _ _ d h
    · exact hc.writeFile hl hf hn _ _ d h

theorem copy {folder : Text} (hf : folder ∈ u.folders) (hm : Path.Descends moment) (file : Text) :
    Keeps (Stays u d₀ d₁) (Backup.copy u.site (Path.join folder moment) file) := by
  intro d h
  unfold Backup.copy
  split
  · exact h
  · exact h
  · rename_i place hplace
    split
    · exact h
    · rename_i root hroot
      obtain ⟨-, root', hroot', hresolve, hbelow, -⟩ := Site.locate_eq_ok hplace
      obtain rfl := Except.ok.inj (hroot'.symm.trans hroot)
      have hplain := Disk.plain_of_resolve hresolve
      have hrel := Path.descends_relative hbelow hplain
      dsimp only
      rw [Path.join_assoc _ hm.isRelative hrel.isRelative]
      exact Keeps.bind (Stays.makeDirectories _) (fun _ => hc.copyFile hl hf (hm.join hrel) hplain) d h

theorem copyAll {folder : Text} (hf : folder ∈ u.folders) (hm : Path.Descends moment) (files : List Text) :
    Keeps (Stays u d₀ d₁) (Backup.copyAll u.site (Path.join folder moment) files) := by
  induction files with
  | nil => exact Keeps.pure _
  | cons f fs ih =>
    have rest (errors : List Text) := Keeps.bind ih fun rest => Keeps.pure (ε := Disk.BadName) (errors ++ rest)
    rw [Backup.copyAll]
    split
    · exact Keeps.bind (Keeps.pure []) rest
    · exact Keeps.bind (hc.copy hl hf hm f) rest

/-- However a run ends, what stands outside the directories for output and backups is as it was, but for new
directories. -/
theorem run (w : Faults) (hm : Path.Descends moment) (l : Ledger) : Keeps (Stays u d₀ d₁) (run u w moment l) := by
  refine (hc.withstands hl w).run ?_
  unfold backUp
  split
  · exact Keeps.pure _
  · rename_i dir hdir
    exact Keeps.mapError _ (hc.copyAll hl (by simp [folders, hdir]) hm _)

end Setup.Confined

end Generation
end StylePrune
