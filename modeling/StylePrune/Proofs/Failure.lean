import StylePrune.Proofs.Css.Origin
import StylePrune.Proofs.Disk.Links
import StylePrune.Proofs.Ledger.Seeding
import StylePrune.Proofs.Output

/-!
What one file can do to a whole request. A file that cannot be read, is no stylesheet or cannot be written costs
one line. What else can be wrong with a file ends the request: a name that no file can have, a number that is too
long, and in the bundle a text that cannot be spelled.
-/

set_option autoImplicit false

namespace StylePrune

namespace Disk

variable {d d' : Disk} {path text : Text} {refuse : Bool}

/-- The directories on the way to a path are there or can be made. -/
def Admits (d : Disk) (path : Text) : Prop :=
  let directory := (Path.names (Path.normalize path)).dropLast
  ∃ d' p, makeDirectories directory d = (.ok (), d') ∧ d'.find (pathOf directory) = .ok p

theorem replaceFile_eq_unspellable_iff : (replaceFile path text refuse d).1 = .error .unspellable ↔
    d.Admits path ∧ Utf8.encode? text = none := by
  unfold replaceFile Admits
  simp only
  generalize (Path.names (Path.normalize path)).dropLast = directory
  cases hm : makeDirectories directory d with
  | mk r d₁ =>
    cases r with
    | error e =>
      rw [Action.bind_of_error (Action.mapError_of_error hm _)]
      exact iff_of_false nofun fun ⟨⟨d', p, h, _⟩, _⟩ => by cases (Prod.mk.inj h).1
    | ok _ =>
      rw [Action.bind_of_ok (Action.mapError_of_ok hm _)]
      cases hf : d₁.find (pathOf directory) with
      | error e =>
        refine iff_of_false (by simp) fun ⟨⟨d', p, h, hp⟩, _⟩ => ?_
        obtain ⟨-, rfl⟩ := Prod.mk.inj h
        cases hf.symm.trans hp
      | ok p =>
        cases hc : Utf8.encode? text with
        | none => exact iff_of_true (by simp) ⟨⟨d₁, p, rfl, hf⟩, rfl⟩
        | some content =>
          simp only [reduceCtorEq, and_false, iff_false]
          split
          · nofun
          · split
            · nofun
            · split
              · nofun
              · nofun

end Disk

namespace Generation

open Disk (Action)

variable {u : Setup} {w : Faults} {d d' : Disk} {file : Text} {st : Statuses} {x : RunError}
variable {es : List (Text × Statuses)}

theorem parse_of_clean {css : Text} {e : Css.ParseError} (h : clean st css = .error e) :
    Css.Sheet.parse css = .error e := by
  cases hp : Css.Sheet.parse css with
  | error e' =>
    rw [clean, hp] at h
    rw [Except.error.inj h]
  | ok sheet => simp [clean, hp, Except.map] at h

/-- A file ends a run if it is late or not legible. -/
theorem exists_prepare_eq_fatal_iff : (∃ x, prepare u w d file st = .error (.fatal x)) ↔
    w.late file = true ∨ ¬ u.site.Legible w.locked d file := by
  constructor
  · rintro ⟨x, h⟩
    by_contra hno
    obtain ⟨hl, hlegible⟩ := not_or.1 hno
    have hlegible := not_not.1 hlegible
    rw [prepare, if_neg hl] at h
    split at h
    · rename_i b hb
      exact hlegible.named b (Site.read_eq_badName_iff.1 hb)
    · cases h
    · rename_i r hr
      split at h
      · rename_i t hp
        exact hlegible.short r.1 r.2 hr t (parse_of_clean hp)
      · cases h
      · split at h
        · rename_i hd
          obtain ⟨path, hpath⟩ := exists_destination_of_read hr
          cases hd.symm.trans hpath
        · cases h
  · intro h
    by_cases hl : w.late file = true
    · exact ⟨_, by rw [prepare, if_pos hl]⟩
    · by_contra hno
      refine h.elim hl fun hlegible => hlegible ⟨fun b hb => hno ?_, fun css size hr t hp => hno ?_⟩
      · exact ⟨.badName b, by simp [prepare, hl, Site.read_eq_badName_iff.2 hb]⟩
      · exact ⟨.tooLong t, by simp [prepare, hl, hr, clean, hp, Except.map]⟩

/-- What a caller of a run is told of: that the time is over, and that the bundle could not be written. -/
def RunError.IsAnnounced : RunError → Prop
  | .timedOut _ | .bundleNotWritten _ => True
  | .badName _ | .tooLong _ | .unspellable => False

theorem isAnnounced_iff_of_prepare (h : prepare u w d file st = .error (.fatal x)) :
    x.IsAnnounced ↔ w.late file = true := by
  by_cases hl : w.late file = true
  · rw [prepare, if_pos hl] at h
    obtain rfl := FileError.fatal.inj (Except.error.inj h)
    exact iff_of_true trivial hl
  · refine iff_of_false ?_ hl
    rw [prepare, if_neg hl] at h
    split at h
    · obtain rfl := FileError.fatal.inj (Except.error.inj h)
      exact id
    · cases h
    · split at h
      · obtain rfl := FileError.fatal.inj (Except.error.inj h)
        exact id
      · cases h
      · split at h
        · obtain rfl := FileError.fatal.inj (Except.error.inj h)
          exact id
        · cases h

theorem isSome_encode?_of_prepare {c : Cleaned} {path : Text} (h : prepare u w d file st = .ok (c, path)) :
    (Utf8.encode? c.css).isSome := by
  unfold prepare at h
  split at h
  · cases h
  · split at h
    · cases h
    · cases h
    · rename_i r hr
      split at h
      · cases h
      · cases h
      · rename_i k hk
        split at h
        · cases h
        · obtain ⟨rfl, -⟩ := Prod.mk.inj (Except.ok.inj h)
          obtain ⟨_, bytes, _, -, -, -, -, rfl⟩ := Site.read_eq_ok hr
          exact isSome_encode?_clean hk

/-- Writing a cleaned text may fail and cost the file a line, but does not end the run. -/
theorem cleanFile_eq_fatal_iff : (cleanFile u w file st d).1 = .error (.fatal x) ↔
    prepare u w d file st = .error (.fatal x) := by
  unfold cleanFile
  cases hp : prepare u w d file st with
  | error e =>
    have hask : Action.ask (fun d => prepare u w d file st) d = (.error e, d) := by rw [Action.ask, hp]
    rw [Action.bind_of_error hask]
    simp
  | ok p =>
    rw [Action.bind_of_ok (Action.ask_of_ok hp)]
    simp only [reduceCtorEq, iff_false]
    cases hr : Disk.replaceFile p.2 p.1.css (w.unwritable (.cleaned file)) d with
    | mk r d₁ =>
      cases r with
      | ok _ =>
        rw [Action.bind_of_ok (Action.mapError_of_ok hr _)]
        exact fun h => by cases h
      | error e =>
        rw [Action.bind_of_error (Action.mapError_of_error hr _)]
        cases e with
        | errno e => exact fun h => by cases h
        | unspellable =>
          have hn := (Disk.replaceFile_eq_unspellable_iff.1 (congrArg Prod.fst hr)).2
          have hs := isSome_encode?_of_prepare hp
          simp [hn] at hs

/-- Cleaning goes on after a file that does not end the run, whatever the later files are. -/
theorem exists_cleanFiles_cons (e : Text × Statuses)
    (h : ∀ x, (cleanFile u w e.1 e.2 d).1 ≠ .error (.fatal x)) : ∃ f : Outcome → Outcome, ∀ es,
      cleanFiles u w (e :: es) d = match cleanFiles u w es (cleanFile u w e.1 e.2 d).2 with
        | (.ok o, d') => (.ok (f o), d')
        | (.error x, d') => (.error x, d') := by
  have after (f : Outcome → Outcome) (es : List (Text × Statuses)) (d : Disk) :
      (cleanFiles u w es >>= fun o => pure (f o)) d = match cleanFiles u w es d with
        | (.ok o, d') => (.ok (f o), d')
        | (.error x, d') => (.error x, d') := by
    cases ho : cleanFiles u w es d with
    | mk r d' =>
      cases r with
      | ok o => exact Action.bind_of_ok ho _
      | error x => exact Action.bind_of_error ho _
  cases hc : cleanFile u w e.1 e.2 d with
  | mk r d₁ =>
    cases r with
    | ok c =>
      refine ⟨fun o => { o with cleaned := c :: o.cleaned }, fun es => ?_⟩
      rw [cleanFiles, Action.attempt_bind, hc]
      exact after _ es d₁
    | error y =>
      refine ⟨fun o => { o with errors := y.line e.1 :: o.errors }, fun es => ?_⟩
      rw [cleanFiles, Action.attempt_bind, hc]
      cases y with
      | fatal x => exact absurd (congrArg Prod.fst hc) (h x)
      | unavailable _ | illFormed _ | notWritten _ => exact after _ es d₁

theorem cleanInVain_eq_ok (es : List (Text × Statuses)) (d : Disk) : (cleanInVain u w es d).1 = .ok () := by
  induction es generalizing d with
  | nil => rfl
  | cons e es ih =>
    rw [cleanInVain, Action.attempt_bind]
    exact ih _

theorem cleanFiles_cons_of_fatal {e : Text × Statuses} (h : (cleanFile u w e.1 e.2 d).1 = .error (.fatal x))
    (es : List (Text × Statuses)) : (cleanFiles u w (e :: es) d).1 = .error x := by
  rw [cleanFiles, Action.attempt_bind, h]
  have hv : cleanInVain u w (es.take u.workers) (cleanFile u w e.1 e.2 d).2 = (.ok (), _) :=
    Prod.ext (cleanInVain_eq_ok _ _) rfl
  exact congrArg Prod.fst (Action.bind_of_ok hv _)

/-- Cleaning fails with what is wrong with the first file that ends it, found as the disk is when the file's turn
comes. -/
theorem cleanFiles_eq_error_iff : (cleanFiles u w es d).1 = .error x ↔ ∃ before e after o d₁,
    es = before ++ e :: after ∧ cleanFiles u w before d = (.ok o, d₁) ∧
      prepare u w d₁ e.1 e.2 = .error (.fatal x) := by
  induction es generalizing d with
  | nil => exact iff_of_false nofun fun ⟨before, e, after, _, _, h, _⟩ => by simp at h
  | cons e es ih =>
    by_cases hfatal : ∃ y, (cleanFile u w e.1 e.2 d).1 = .error (.fatal y)
    · obtain ⟨y, hy⟩ := hfatal
      have hp := cleanFile_eq_fatal_iff.1 hy
      rw [cleanFiles_cons_of_fatal hy, Except.error.injEq]
      constructor
      · rintro rfl
        exact ⟨[], e, es, ⟨[], []⟩, d, rfl, rfl, hp⟩
      · rintro ⟨before, e', after, o, d₁, hes, hb, hx⟩
        cases before with
        | nil =>
          obtain ⟨rfl, -⟩ := List.cons.inj hes
          obtain ⟨-, rfl⟩ := Prod.mk.inj hb
          exact FileError.fatal.inj (Except.error.inj (hp.symm.trans hx))
        | cons b before =>
          obtain ⟨rfl, -⟩ := List.cons.inj hes
          have := cleanFiles_cons_of_fatal hy before
          rw [hb] at this
          cases this
    · obtain ⟨f, hf⟩ := exists_cleanFiles_cons e fun y hy => hfatal ⟨y, hy⟩
      have herror : (cleanFiles u w (e :: es) d).1 = .error x ↔
          (cleanFiles u w es (cleanFile u w e.1 e.2 d).2).1 = .error x := by
        rw [hf]
        split
        · rename_i h
          simp [h]
        · rename_i h
          simp [h]
      rw [herror, ih]
      constructor
      · rintro ⟨before, e', after, o, d₁, rfl, hb, hx⟩
        exact ⟨e :: before, e', after, f o, d₁, rfl, by rw [hf, hb], hx⟩
      · rintro ⟨before, e', after, o, d₁, hes, hb, hx⟩
        cases before with
        | nil =>
          obtain ⟨rfl, -⟩ := List.cons.inj hes
          obtain ⟨-, rfl⟩ := Prod.mk.inj hb
          exact absurd ⟨x, cleanFile_eq_fatal_iff.2 hx⟩ hfatal
        | cons b before =>
          obtain ⟨rfl, rfl⟩ := List.cons.inj hes
          rw [hf] at hb
          split at hb
          · rename_i o' d' h
            obtain ⟨-, rfl⟩ := Prod.mk.inj hb
            exact ⟨before, e', after, o', _, rfl, h, hx⟩
          · cases (Prod.mk.inj hb).1

theorem exists_backUp_iff {moment : Text} {l : Ledger} : (∃ failed, (backUp u moment l d).1 = .ok failed) ↔
    u.backup = none ∨ ∀ file ∈ l.keys, ∀ b, Site.locate u.site d file ≠ .error (.badName b) := by
  unfold backUp
  cases hb : u.backup with
  | none => exact iff_of_true ⟨[], rfl⟩ (.inl rfl)
  | some dir =>
    have hinline (b : Disk.BadName) : Site.locate u.site d SourceKey.inline ≠ .error (.badName b) := by
      simp [Site.locate_inline]
    have hkeys : (∀ file ∈ l.keys, ∀ b, Site.locate u.site d file ≠ .error (.badName b)) ↔
        ∀ file ∈ l.keys.filter (· ≠ SourceKey.inline), ∀ b, Site.locate u.site d file ≠ .error (.badName b) := by
      refine ⟨fun h file hf => h file (List.mem_of_mem_filter hf), fun h file hf => ?_⟩
      by_cases hi : file = SourceKey.inline
      · exact hi ▸ hinline
      · exact h file (List.mem_filter.2 ⟨hf, by simpa using hi⟩)
    rw [hkeys, ← Backup.exists_copyAll_iff (Path.join dir moment)]
    simp only [reduceCtorEq, false_or]
    cases hc : Backup.copyAll u.site (Path.join dir moment) (l.keys.filter (· ≠ SourceKey.inline)) d with
    | mk r d' =>
      cases r with
      | ok failed => exact iff_of_true ⟨failed, congrArg Prod.fst (Action.mapError_of_ok hc _)⟩ ⟨failed, rfl⟩
      | error b =>
        rw [Action.mapError_of_error hc]
        exact iff_of_false (fun ⟨_, h⟩ => by cases h) fun ⟨_, h⟩ => by cases h

/-- The result is there, or it fails as a run says it may. -/
def Contained {α : Type} (r : Except RunError α) : Prop := ∀ x, r = .error x → x.IsAnnounced

theorem contained_bind {α β : Type} {a : Action RunError α} {f : α → Action RunError β} :
    Contained ((a >>= f) d).1 ↔
      Contained (a d).1 ∧ ∀ y d', a d = (.ok y, d') → Contained (f y d').1 := by
  cases ha : a d with
  | mk r d₁ =>
    cases r with
    | ok y =>
      rw [Action.bind_of_ok ha]
      constructor
      · intro h
        refine ⟨nofun, fun y' d' he => ?_⟩
        obtain ⟨hy, rfl⟩ := Prod.mk.inj he
        obtain rfl := Except.ok.inj hy
        exact h
      · exact fun h => h.2 y d₁ rfl
    | error x =>
      rw [Action.bind_of_error ha]
      constructor
      · exact fun h => ⟨fun y hy => h y (by rw [Except.error.inj hy]), fun _ _ he => by cases (Prod.mk.inj he).1⟩
      · exact fun h y hy => h.1 y (by rw [Except.error.inj hy])

theorem contained_backUp_iff {moment : Text} {l : Ledger} : Contained (backUp u moment l d).1 ↔
    u.backup = none ∨ ∀ file ∈ l.keys, ∀ b, Site.locate u.site d file ≠ .error (.badName b) := by
  rw [← exists_backUp_iff]
  cases hb : backUp u moment l d with
  | mk r d₁ =>
    cases r with
    | ok failed => exact iff_of_true nofun ⟨failed, rfl⟩
    | error x =>
      refine iff_of_false (fun h => ?_) fun ⟨_, h⟩ => by cases h
      rw [backUp] at hb
      cases hu : u.backup with
      | none =>
        rw [hu] at hb
        cases (Prod.mk.inj hb).1
      | some dir =>
        rw [hu] at hb
        obtain ⟨b, -, rfl⟩ := Action.mapError_eq_error hb
        exact h _ rfl

theorem contained_cleanFiles_iff : Contained (cleanFiles u w es d).1 ↔ ∀ before e after o d₁,
    es = before ++ e :: after → cleanFiles u w before d = (.ok o, d₁) →
      w.late e.1 = true ∨ u.site.Legible w.locked d₁ e.1 := by
  constructor
  · intro h before e after o d₁ hes hbefore
    by_contra hno
    obtain ⟨x, hx⟩ := exists_prepare_eq_fatal_iff.2 (.inr fun hl => hno (.inr hl))
    have hall := cleanFiles_eq_error_iff.2 ⟨before, e, after, o, d₁, hes, hbefore, hx⟩
    exact hno (.inl ((isAnnounced_iff_of_prepare hx).1 (h x hall)))
  · intro h x hx
    obtain ⟨before, e, after, o, d₁, hes, hbefore, hx⟩ := cleanFiles_eq_error_iff.1 hx
    rw [isAnnounced_iff_of_prepare hx]
    rcases h before e after o d₁ hes hbefore with hl | hl
    · exact hl
    · exact (exists_prepare_eq_fatal_iff.1 ⟨x, hx⟩).resolve_right (not_not.2 hl)

theorem contained_writeBundle_iff {cs : List Cleaned} : Contained (writeBundle u w cs d).1 ↔
    (cs ≠ [] → ∃ css, bundle cs = .ok css ∧ (d.Admits u.bundlePath → (Utf8.encode? css).isSome)) := by
  rw [writeBundle]
  split
  · rename_i hcs
    exact iff_of_true (fun x hx => by cases hx) fun h => absurd (List.isEmpty_iff.1 hcs) h
  · rename_i hcs
    have hcs : cs ≠ [] := by simpa using hcs
    simp only [ne_eq, hcs, not_false_eq_true, true_implies]
    cases hb : bundle cs with
    | error t => exact iff_of_false (fun h => h _ rfl) (by simp)
    | ok css =>
      simp only [Except.ok.injEq, exists_eq_left']
      have hspell : (d.Admits u.bundlePath → (Utf8.encode? css).isSome) ↔
          (Disk.replaceFile u.bundlePath css (w.unwritable .bundle) d).1 ≠ .error .unspellable := by
        rw [Ne, Disk.replaceFile_eq_unspellable_iff, not_and, ← Ne, ← Option.isSome_iff_ne_none]
      rw [hspell]
      cases hr : Disk.replaceFile u.bundlePath css (w.unwritable .bundle) d with
      | mk r d₁ =>
        cases r with
        | ok _ =>
          rw [Action.bind_of_ok (Action.mapError_of_ok hr _)]
          exact iff_of_true (fun x hx => by cases hx) (fun h => by cases h)
        | error e =>
          rw [Action.bind_of_error (Action.mapError_of_error hr _)]
          cases e with
          | unspellable => exact iff_of_false (fun h => h _ rfl) fun h => h rfl
          | errno e =>
            refine iff_of_true (fun x hx => ?_) (fun h => by cases h)
            obtain rfl := Except.error.inj hx
            trivial

/-- A run is contained if every name can be looked for before sheets are backed up, every file is late or legible
when its turn comes, and the bundle can be spelled if there is a directory for it. -/
theorem contained_run_iff {moment : Text} {l : Ledger} : Contained (run u w moment l d).1 ↔
    (u.backup = none ∨ ∀ file ∈ l.keys, ∀ b, Site.locate u.site d file ≠ .error (.badName b)) ∧
    ∀ failed d₀, backUp u moment l d = (.ok failed, d₀) →
      (∀ before e after o d₁, filesOf l = before ++ e :: after → cleanFiles u w before d₀ = (.ok o, d₁) →
        w.late e.1 = true ∨ u.site.Legible w.locked d₁ e.1) ∧
      ∀ o d₁, cleanFiles u w (filesOf l) d₀ = (.ok o, d₁) → o.cleaned ≠ [] →
        ∃ css, bundle o.cleaned = .ok css ∧ (d₁.Admits u.bundlePath → (Utf8.encode? css).isSome) := by
  have hpure {α : Type} (y : α) (d : Disk) : Contained ((pure y : Action RunError α) d).1 := nofun
  rw [run, contained_bind, contained_backUp_iff]
  simp only [contained_bind, contained_cleanFiles_iff, contained_writeBundle_iff, hpure, implies_true, and_true]

end Generation

namespace Service

open Generation Ledger

theorem locate_nul : Site.locate inner.site (innerDisk []) "a\x00.css" = .error (.badName .nulByte) := by
  have hi : ("a\x00.css" : Text) ≠ SourceKey.inline := by decide
  have hroot : (innerDisk []).resolve inner.site.root = .ok [("s" : Text)] := by cbv
  have hplace : (innerDisk []).resolve (Path.join (Disk.pathOf [("s" : Text)]) "a\x00.css") = .error .nulByte := by cbv
  simp only [Site.locate, if_neg hi, hroot, hplace]

end Service
end StylePrune
