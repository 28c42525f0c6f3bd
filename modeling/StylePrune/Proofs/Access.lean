import StylePrune.Proofs.Confinement
import StylePrune.Proofs.Disk.Settling

/-!
Which files of a site are opened to be read or copied, and where their cleaned forms go. The place that is checked
lies in the site, and it is opened by its names once more. If these still lead through a link, which takes a link on
the way that leads back to itself, the file that is opened may lie elsewhere.
-/

set_option autoImplicit false

namespace StylePrune

namespace Site

variable {s : Site} {locked : Text → Bool} {d d' : Disk} {file : Text} {root q : Place}

/-- The stylesheet of this name may be opened, and this is the place of the file that then is. -/
def Opens (s : Site) (d : Disk) (file : Text) (q : Place) : Prop :=
  ∃ place, locate s d file = .ok place ∧ d.find (Disk.pathOf place) = .ok q

/-- On the way of a name from the site's root no link leads back to itself. -/
def Settles (s : Site) (d : Disk) (file : Text) : Prop :=
  ∀ root, d.resolve s.root = .ok root → d.Settles (Path.join (Disk.pathOf root) file)

theorem Opens.isFile (h : s.Opens d file q) : ∃ f : Bytes × Int, d.entry? q = some (.file f.1 f.2) := by
  obtain ⟨place, hl, hq⟩ := h
  obtain ⟨-, root, -, -, -, hf⟩ := locate_eq_ok hl
  obtain ⟨f, hf⟩ := Disk.isFile_iff.1 hf
  obtain ⟨p, hp, he⟩ := Disk.open?_eq_ok_iff.1 hf
  obtain rfl := Except.ok.inj (hq.symm.trans hp)
  exact ⟨f, he⟩

theorem Opens.linkless (h : s.Opens d file q) : Disk.Linkless d q := by
  obtain ⟨place, -, hq⟩ := h
  exact Disk.linkless_of_find hq

/-- What is opened is what the checked place leads to, and that place itself only if no link is left in it. -/
theorem Opens.exists_place (h : s.Opens d file q) : ∃ root place, d.resolve s.root = .ok root ∧
    d.resolve (Path.join (Disk.pathOf root) file) = .ok place ∧ root <+: place ∧
      d.find (Disk.pathOf place) = .ok q ∧ (q = place ↔ Disk.Linkless d place) := by
  obtain ⟨place, hl, hq⟩ := h
  obtain ⟨-, root, hroot, hplace, hb, -⟩ := locate_eq_ok hl
  exact ⟨root, place, hroot, hplace, Disk.isBelow_iff.1 hb, hq,
    Disk.find_pathOf_eq_iff (Disk.plain_of_resolve hplace) hq⟩

/-- A name on whose way no link leads back to itself opens a file of the site only. -/
theorem Opens.inside (h : s.Opens d file q) (hs : s.Settles d file) (hroot : d.resolve s.root = .ok root) :
    root <+: q ∧ (d.entry? root = some .directory → root ≠ q) := by
  obtain ⟨root', place, hr, hplace, hb, -, heq⟩ := h.exists_place
  obtain rfl := Except.ok.inj (hr.symm.trans hroot)
  obtain rfl := heq.2 ((hs root' hroot).linkless hplace)
  refine ⟨hb, fun hd he => ?_⟩
  obtain ⟨f, hf⟩ := h.isFile
  rw [← he, hd] at hf
  cases hf

/-- A name that itself leads to a file opens that file. -/
theorem Opens.of_find (h : s.Opens d file q) (hroot : d.resolve s.root = .ok root) {p : Place}
    (hf : d.find (Path.join (Disk.pathOf root) file) = .ok p) : s.Settles d file ∧ q = p := by
  obtain ⟨root', place, hr, hplace, -, -, heq⟩ := h.exists_place
  obtain rfl := Except.ok.inj (hr.symm.trans hroot)
  obtain rfl := Disk.eq_of_find_of_resolve hf hplace
  refine ⟨fun root hroot' => ?_, heq.2 (Disk.linkless_of_find hf)⟩
  obtain rfl := Except.ok.inj (hroot.symm.trans hroot')
  exact Disk.settles_of_find hf hplace

/-- Reading gives the text of the file that is opened. -/
theorem exists_opens_of_read {r : Text × Nat} (h : read s locked d file = .ok r) : ∃ q content modified,
    s.Opens d file q ∧ d.entry? q = some (.file content modified) ∧
      r = (Utf8.decodeLossy (Utf8.dropMark content), content.length) := by
  obtain ⟨place, content, modified, hl, ho, -, -, rfl⟩ := read_eq_ok h
  obtain ⟨q, hq, he⟩ := Disk.open?_eq_ok_iff.1 ho
  exact ⟨q, content, modified, ⟨place, hl, hq⟩, he, rfl⟩

end Site

theorem Disk.copyFile_cases (source path : Text) (d : Disk) : (copyFile source path d).2 = d ∨
    ∃ f p, d.open? source = .ok f ∧ (copyFile source path d).2 = d.set p (.file f.1 f.2) := by
  unfold copyFile
  cases ho : d.open? source with
  | error e => exact .inl rfl
  | ok f =>
    dsimp only
    unfold writeFile
    split
    · exact .inl rfl
    · rename_i p _
      exact .inr ⟨f, p, rfl, rfl⟩

/-- A copy makes directories, and after them puts the file that is opened somewhere or nothing. -/
theorem Backup.copy_cases (s : Site) (directory file : Text) (d : Disk) : ∃ d₁, Disk.Enlarges d d₁ ∧
    ((copy s directory file d).2 = d₁ ∨ ∃ q content modified p, s.Opens d file q ∧
      d.entry? q = some (.file content modified) ∧ (copy s directory file d).2 = d₁.set p (.file content modified)) := by
  have same : Disk.Enlarges d d := ⟨Disk.Grows.refl d, fun _ _ => id⟩
  unfold copy
  split
  · exact ⟨d, same, .inl rfl⟩
  · exact ⟨d, same, .inl rfl⟩
  · rename_i place hplace
    split
    · exact ⟨d, same, .inl rfl⟩
    · rename_i root hroot
      dsimp only
      generalize Path.join directory (Path.relative (Disk.pathOf root) (Disk.pathOf place)) = target
      have hd := Disk.makeDirectories_enlarges (Path.names (Path.normalize target)).dropLast d
      cases hm : Disk.makeDirectories (Path.names (Path.normalize target)).dropLast d with
      | mk r d₁ =>
      rw [hm] at hd
      refine ⟨d₁, hd, ?_⟩
      cases r with
      | error e => exact .inl (congrArg Prod.snd (Disk.Action.bind_of_error hm _))
      | ok _ =>
        rw [Disk.Action.bind_of_ok hm]
        rcases Disk.copyFile_cases (Disk.pathOf place) target d₁ with h | ⟨f, p, ho, h⟩
        · exact .inl h
        · obtain ⟨-, -, -, -, -, hfile⟩ := Site.locate_eq_ok hplace
          obtain ⟨f', hf'⟩ := Disk.isFile_iff.1 hfile
          obtain ⟨q, hq, he⟩ := Disk.open?_eq_ok_iff.1 hf'
          have hq' := Disk.follow_of_leads (hd.grows.leads (Disk.leads_of_follow hq))
          obtain rfl := Except.ok.inj ((Disk.open?_eq_ok_iff.2 ⟨q, hq', hd.grows q _ he⟩).symm.trans ho)
          exact .inr ⟨q, f'.1, f'.2, p, ⟨place, hplace, hq⟩, he, h⟩

namespace Generation

/-- Writing a cleaned file replaces one at a path that goes on down from the output directory. -/
theorem cleanFile_cases (u : Setup) (w : Faults) (file : Text) (st : Statuses) (d : Disk) :
    (cleanFile u w file st d).2 = d ∨ ∃ name css, name ≠ [] ∧ Path.Descends name ∧ (cleanFile u w file st d).2 =
      (Disk.replaceFile (Path.join u.output name) css (w.unwritable (.cleaned file)) d).2 := by
  cases hp : prepare u w d file st with
  | error e =>
    have hask : Disk.Action.ask (fun d => prepare u w d file st) d = (.error e, d) := by rw [Disk.Action.ask, hp]
    exact .inl (congrArg Prod.snd (Disk.Action.bind_of_error hask _))
  | ok c =>
    obtain ⟨c, path⟩ := c
    have harises := (prepare_arises (l := Table.empty.insert file st) (by rw [Table.get?_insert, if_pos rfl]) hp).2
    obtain ⟨name, hne, hn, rfl⟩ := harises.exists_name
    refine .inr ⟨name, c.css, hne, hn, ?_⟩
    unfold cleanFile
    rw [Disk.Action.bind_of_ok (Disk.Action.ask_of_ok hp)]
    cases hr : Disk.replaceFile (Path.join u.output name) c.css (w.unwritable (.cleaned file)) d with
    | mk r d' =>
      cases r with
      | ok _ => rw [Disk.Action.bind_of_ok (Disk.Action.mapError_of_ok hr _)]; rfl
      | error e => rw [Disk.Action.bind_of_error (Disk.Action.mapError_of_error hr _)]

/-- Whatever file is opened to be read or copied is a regular one, named by no link. It lies in the site if its
name has no link on its way that leads back to itself, and below the root then, unless the root is that file. What is
written for it goes below the output directory, links there apart. -/
theorem access_contained (u : Setup) (w : Faults) (d : Disk) (file : Text) :
    (∀ q, u.site.Opens d file q →
      (∃ f : Bytes × Int, d.entry? q = some (.file f.1 f.2)) ∧ Disk.Linkless d q ∧
      ∃ root place, d.resolve u.site.root = .ok root ∧
        d.resolve (Path.join (Disk.pathOf root) file) = .ok place ∧ root <+: place ∧ d.find (Disk.pathOf place) = .ok q ∧
        (q = place ↔ Disk.Linkless d place) ∧
        (u.site.Settles d file → root <+: q ∧ (d.entry? root = some .directory → root ≠ q))) ∧
    (∀ r, Site.read u.site w.locked d file = .ok r → ∃ q content modified, u.site.Opens d file q ∧
      d.entry? q = some (.file content modified) ∧ r = (Utf8.decodeLossy (Utf8.dropMark content), content.length)) ∧
    (∀ directory, ∃ d₁, Disk.Enlarges d d₁ ∧ ((Backup.copy u.site directory file d).2 = d₁ ∨
      ∃ q content modified p, u.site.Opens d file q ∧ d.entry? q = some (.file content modified) ∧
        (Backup.copy u.site directory file d).2 = d₁.set p (.file content modified))) ∧
    (∀ st, (cleanFile u w file st d).2 = d ∨ ∃ name css, name ≠ [] ∧ Path.Descends name ∧
      (cleanFile u w file st d).2 =
        (Disk.replaceFile (Path.join u.output name) css (w.unwritable (.cleaned file)) d).2) := by
  refine ⟨fun q hq => ⟨hq.isFile, hq.linkless, ?_⟩, fun r => Site.exists_opens_of_read,
    fun directory => Backup.copy_cases u.site directory file d, fun st => cleanFile_cases u w file st d⟩
  obtain ⟨root, place, hroot, hplace, hb, hf, heq⟩ := hq.exists_place
  exact ⟨root, place, hroot, hplace, hb, hf, heq, fun hs => hq.inside hs hroot⟩

/-- A link that leads to itself, and one that leads out of the site. -/
def strayDisk : Disk :=
  innerDisk [(["t.css"], .file ".y\x7b\x7d".toUTF8.toList 0), (["s", "l"], .link "l"), (["s", "b.css"], .link "../t.css")]

theorem resolve_stray : strayDisk.resolve inner.site.root = .ok [("s" : Text)] := by cbv

theorem opens_stray {file : Text} {place q : Place} {f : Bytes × Int} (hi : file ≠ SourceKey.inline)
    (hplace : strayDisk.resolve (Path.join (Disk.pathOf [("s" : Text)]) file) = .ok place)
    (hb : Disk.isBelow [("s" : Text)] place = true) (hq : strayDisk.find (Disk.pathOf place) = .ok q)
    (he : strayDisk.entry? q = some (.file f.1 f.2)) : inner.site.Opens strayDisk file q :=
  ⟨place, Site.locate_of_resolve hi resolve_stray hplace hb (Disk.open?_eq_ok_iff.2 ⟨q, hq, he⟩), hq⟩

/-- A name that leads out of the site is turned away, but not after a link that leads to itself. -/
theorem not_inside_stray : (∃ q, inner.site.Opens strayDisk "a.css" q ∧ [("s" : Text)] <+: q ∧ [("s" : Text)] ≠ q) ∧
    Site.locate inner.site strayDisk "b.css" = .error (.unavailable .outside) ∧
    inner.site.Opens strayDisk "l/../b.css" [("t.css" : Text)] := by
  have hplace : strayDisk.resolve (Path.join (Disk.pathOf [("s" : Text)]) "a.css") = .ok [("s" : Text), "a.css"] := by
    cbv
  have hfind : strayDisk.find (Disk.pathOf [("s" : Text), "a.css"]) = .ok [("s" : Text), "a.css"] := by cbv
  have hout : strayDisk.resolve (Path.join (Disk.pathOf [("s" : Text)]) "b.css") = .ok [("t.css" : Text)] := by cbv
  have hloop : strayDisk.resolve (Path.join (Disk.pathOf [("s" : Text)]) "l/../b.css") = .ok [("s" : Text), "b.css"] := by
    cbv
  have hstray : strayDisk.find (Disk.pathOf [("s" : Text), "b.css"]) = .ok [("t.css" : Text)] := by cbv
  have hopen : inner.site.Opens strayDisk "a.css" [("s" : Text), "a.css"] :=
    opens_stray (f := (".y\x7b\x7d".toUTF8.toList, 0)) (by decide) hplace (by decide) hfind rfl
  refine ⟨⟨_, hopen, ?_⟩, ?_,
    opens_stray (f := (".y\x7b\x7d".toUTF8.toList, 0)) (by decide) hloop (by decide) hstray rfl⟩
  · obtain ⟨-, -, root, place, hr, -, -, -, -, hin⟩ := (access_contained inner Faults.none strayDisk "a.css").1 _ hopen
    obtain rfl := Except.ok.inj (hr.symm.trans resolve_stray)
    obtain ⟨hb, hne⟩ := hin fun root hroot => by
      obtain rfl := Except.ok.inj (hroot.symm.trans resolve_stray)
      exact Disk.settles_of_find hfind hplace
    exact ⟨hb, hne rfl⟩
  · simp only [Site.locate, if_neg (show ("b.css" : Text) ≠ SourceKey.inline by decide), resolve_stray, hout]
    rfl

end Generation
end StylePrune
