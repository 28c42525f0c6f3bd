import Mathlib
import StylePrune.Generation
import StylePrune.Proofs.Css.Prune
import StylePrune.Proofs.Disk.Resolving
import StylePrune.Proofs.Site
import StylePrune.Proofs.Table

/-!
What stands in the output directory after a run. Each cleaned text is put at its path, and the bundle last;
what another text came upon later at the same place is no longer there.
-/

set_option autoImplicit false

namespace StylePrune

theorem Disk.Action.attempt_bind {ε ε' α β : Type} (a : Action ε α) (f : Except ε α → Action ε' β) (d : Disk) :
    (a.attempt >>= f) d = f (a d).1 (a d).2 := rfl

namespace Generation

open Disk (Changes Grows Put)

variable {u : Setup} {w : Faults} {d d' : Disk}

/-- A cleaned text, the path at which it is written, and the disk as it was when its file's turn came. -/
structure Output where
  disk : Disk
  cleaned : Cleaned
  path : Text

def Output.put (o : Output) : Put := ⟨o.disk, o.path, o.cleaned.css⟩

/-- The text is what the ledger makes of the file as it was read. -/
def Output.Arises (u : Setup) (w : Faults) (l : Ledger) (o : Output) : Prop :=
  ∃ st css, l.get? o.cleaned.file = some st ∧
    Site.read u.site w.locked o.disk o.cleaned.file = .ok (css, o.cleaned.sizeBefore) ∧
    clean st css = .ok (o.cleaned.css, o.cleaned.removed) ∧ u.destination o.disk o.cleaned.file = .ok o.path

/-- The outputs of the files that are cleaned without error, in order. -/
def outputs (u : Setup) (w : Faults) : List (Text × Statuses) → Disk → List Output
  | [], _ => []
  | e :: es, d => match cleanFile u w e.1 e.2 d, prepare u w d e.1 e.2 with
    | (.ok _, d'), .ok p => ⟨d, p.1, p.2⟩ :: outputs u w es d'
    | (_, d'), _ => outputs u w es d'

theorem cleanFile_eq_ok {file : Text} {st : Statuses} {c : Cleaned}
    (h : cleanFile u w file st d = (.ok c, d')) : ∃ path, prepare u w d file st = .ok (c, path) ∧
      Disk.replaceFile path c.css (w.unwritable (.cleaned file)) d = (.ok (), d') := by
  unfold cleanFile at h
  obtain ⟨⟨c', path⟩, d₁, hp, h₁⟩ := Disk.Action.bind_eq_ok h
  obtain ⟨hp, rfl⟩ := Disk.Action.ask_eq_ok hp
  obtain ⟨_, d₂, hr, h₂⟩ := Disk.Action.bind_eq_ok h₁
  obtain ⟨hc, rfl⟩ := Prod.mk.inj h₂
  obtain rfl := Except.ok.inj hc
  exact ⟨path, hp, Disk.Action.mapError_eq_ok hr⟩

theorem cleanFile_eq_error {file : Text} {st : Statuses} {x : FileError}
    (h : cleanFile u w file st d = (.error x, d')) : Grows d d' := by
  unfold cleanFile at h
  rcases Disk.Action.bind_eq_error h with hp | ⟨p, d₁, hp, h₁⟩
  · obtain ⟨-, rfl⟩ := Prod.mk.inj hp
    exact Grows.refl _
  · obtain ⟨-, rfl⟩ := Disk.Action.ask_eq_ok hp
    rcases Disk.Action.bind_eq_error h₁ with hr | ⟨_, d₂, -, h₂⟩
    · obtain ⟨e, hr, -⟩ := Disk.Action.mapError_eq_error hr
      exact Disk.replaceFile_eq_error hr
    · cases (Prod.mk.inj h₂).1

theorem prepare_arises {file : Text} {st : Statuses} {c : Cleaned} {path : Text} {l : Ledger}
    (hf : l.get? file = some st) (h : prepare u w d file st = .ok (c, path)) :
    c.file = file ∧ Output.Arises u w l ⟨d, c, path⟩ := by
  unfold prepare at h
  split at h
  · cases h
  · split at h
    · cases h
    · cases h
    · rename_i r hr
      split at h
      · cases h
      · cases h
      · rename_i k hk
        split at h
        · cases h
        · rename_i path' hd
          obtain ⟨rfl, rfl⟩ := Prod.mk.inj (Except.ok.inj h)
          exact ⟨rfl, st, r.1, hf, hr, hk, hd⟩

theorem cleanFiles_eq_ok {es : List (Text × Statuses)} {o : Outcome} (h : cleanFiles u w es d = (.ok o, d')) :
    o.cleaned = (outputs u w es d).map (·.cleaned) ∧ Changes d ((outputs u w es d).map Output.put) d' := by
  induction es generalizing d o with
  | nil =>
    obtain ⟨ho, rfl⟩ := Prod.mk.inj h
    obtain rfl := Except.ok.inj ho
    exact ⟨rfl, (Grows.refl d).changes⟩
  | cons e es ih =>
    rw [cleanFiles, Disk.Action.attempt_bind] at h
    cases hc : cleanFile u w e.1 e.2 d with
    | mk x d₁ =>
      rw [hc] at h
      cases x with
      | ok c =>
        obtain ⟨rest, d₂, hrest, h⟩ := Disk.Action.bind_eq_ok h
        obtain ⟨ho, rfl⟩ := Prod.mk.inj h
        obtain rfl := Except.ok.inj ho
        obtain ⟨hcleaned, hchanges⟩ := ih hrest
        obtain ⟨path, hp, hr⟩ := cleanFile_eq_ok hc
        have hout : outputs u w (e :: es) d = ⟨d, c, path⟩ :: outputs u w es d₁ := by
          rw [outputs, hc, hp]
        rw [hout]
        exact ⟨by rw [hcleaned]; rfl, (Disk.changes_of_replaceFile hr).trans hchanges⟩
      | error x =>
        have hout : outputs u w (e :: es) d = outputs u w es d₁ := by rw [outputs, hc]
        have hrest : ∃ rest, cleanFiles u w es d₁ = (.ok rest, d') ∧ o.cleaned = rest.cleaned := by
          cases x with
          | fatal x =>
            obtain ⟨_, d₂, -, h₁⟩ := Disk.Action.bind_eq_ok h
            cases (Prod.mk.inj h₁).1
          | unavailable _ | illFormed _ | notWritten _ =>
            obtain ⟨rest, d₂, hrest, h₁⟩ := Disk.Action.bind_eq_ok h
            obtain ⟨ho, rfl⟩ := Prod.mk.inj h₁
            exact ⟨rest, hrest, by rw [← Except.ok.inj ho]⟩
        obtain ⟨rest, hrest, ho⟩ := hrest
        obtain ⟨hcleaned, hchanges⟩ := ih hrest
        rw [hout, ho]
        exact ⟨hcleaned, (cleanFile_eq_error hc).changes.trans hchanges⟩

theorem outputs_arises {es : List (Text × Statuses)} {l : Ledger} (hes : ∀ e ∈ es, l.get? e.1 = some e.2) :
    ∀ o ∈ outputs u w es d, o.Arises u w l := by
  fun_induction outputs u w es d with
  | case1 => simp
  | case2 e es d c d' p hp hc ih =>
    have ⟨hfile, harises⟩ := prepare_arises (hes e List.mem_cons_self) hp
    exact List.forall_mem_cons.2 ⟨harises, ih fun e he => hes e (List.mem_cons_of_mem _ he)⟩
  | case3 e es d r d' hc hn ih => exact ih fun e he => hes e (List.mem_cons_of_mem _ he)

theorem writeBundle_eq_ok {cs : List Cleaned} {css : Option Text} (h : writeBundle u w cs d = (.ok css, d')) :
    cs = [] ∨ ∃ text, bundle cs = .ok text ∧
      Disk.replaceFile u.bundlePath text (w.unwritable .bundle) d = (.ok (), d') := by
  unfold writeBundle at h
  by_cases hc : cs.isEmpty = true
  · exact .inl (List.isEmpty_iff.1 hc)
  · rw [if_neg hc] at h
    right
    cases hb : bundle cs with
    | error t =>
      rw [hb] at h
      cases (Prod.mk.inj h).1
    | ok text =>
      rw [hb] at h
      obtain ⟨_, d₁, hr, h₁⟩ := Disk.Action.bind_eq_ok h
      obtain ⟨-, rfl⟩ := Prod.mk.inj h₁
      exact ⟨text, rfl, Disk.Action.mapError_eq_ok hr⟩

/-- After a run that gives a result each file in it has its cleaned text at its path, and the bundle its own,
if and only if the path still leads to the place where the text was put and no other text came there later.
-/
theorem run_holds_iff {moment : Text} {l : Ledger} {r : Result} (h : run u w moment l d = (.ok r, d')) :
    let d₀ := (backUp u moment l d).2
    let os := outputs u w (filesOf l) d₀
    r.files = os.map (·.cleaned.file) ∧ (∀ o ∈ os, o.Arises u w l) ∧
      (os = [] ∨ ∃ text, bundle (os.map (·.cleaned)) = .ok text ∧
        let qs := os.map Output.put ++ [⟨(cleanFiles u w (filesOf l) d₀).2, u.bundlePath, text⟩]
        ∀ q ∈ qs, d'.Holds q.path q.text ↔ ∃ p, q.place = .ok p ∧ d'.find q.path = .ok p ∧
          ∃ r, Disk.lastPut qs p = some r ∧ Utf8.encode? r.text = Utf8.encode? q.text) := by
  obtain ⟨failed, d₀, hb, h₁⟩ := Disk.Action.bind_eq_ok h
  obtain ⟨o, d₁, hc, h₂⟩ := Disk.Action.bind_eq_ok h₁
  obtain ⟨css, d₂, hw, h₃⟩ := Disk.Action.bind_eq_ok h₂
  obtain ⟨hr, rfl⟩ := Prod.mk.inj h₃
  obtain rfl := Except.ok.inj hr
  obtain ⟨hcleaned, hchanges⟩ := cleanFiles_eq_ok hc
  simp only [hb, hc]
  have hes : ∀ e ∈ filesOf l, l.get? e.1 = some e.2 := fun e he => Table.get?_of_mem (List.mem_filter.1 he).1
  refine ⟨?_, outputs_arises hes, ?_⟩
  · rw [hcleaned, List.map_map]
    rfl
  · rcases writeBundle_eq_ok hw with hempty | ⟨text, htext, hr⟩
    · left
      simpa [hcleaned] using hempty
    · right
      exact ⟨text, hcleaned ▸ htext, fun q hq => (hchanges.trans (Disk.changes_of_replaceFile hr)).holds_iff hq⟩

theorem cleanFile_of_prepare {file : Text} {st : Statuses} {c : Cleaned} {path : Text}
    (hp : prepare u w d file st = .ok (c, path))
    (hr : Disk.replaceFile path c.css (w.unwritable (.cleaned file)) d = (.ok (), d')) :
    cleanFile u w file st d = (.ok c, d') := by
  rw [cleanFile, Disk.Action.bind_of_ok (Disk.Action.ask_of_ok hp),
    Disk.Action.bind_of_ok (Disk.Action.mapError_of_ok hr _)]
  rfl

theorem cleanFiles_cons_of_ok {e : Text × Statuses} {es : List (Text × Statuses)} {c : Cleaned} {o : Outcome}
    {d₁ : Disk} (h : cleanFile u w e.1 e.2 d = (.ok c, d₁)) (hr : cleanFiles u w es d₁ = (.ok o, d')) :
    cleanFiles u w (e :: es) d = (.ok { o with cleaned := c :: o.cleaned }, d') := by
  rw [cleanFiles, Disk.Action.attempt_bind, h]
  exact Disk.Action.bind_of_ok hr _

theorem writeBundle_of_ok {cs : List Cleaned} {text : Text} (hn : cs ≠ []) (hb : bundle cs = .ok text)
    (hr : Disk.replaceFile u.bundlePath text (w.unwritable .bundle) d = (.ok (), d')) :
    writeBundle u w cs d = (.ok (some text), d') := by
  rw [writeBundle, if_neg (by simpa using hn), hb]
  exact Disk.Action.bind_of_ok (Disk.Action.mapError_of_ok hr _) _

/-- A site that leaves room on the disk for its output. -/
def inner : Setup := ⟨⟨"/s", Site.defaultMaxSize⟩, "/o", "b", 1, "100", none⟩

/-- The disk of the site, with what has been written. -/
def innerDisk (written : List (Place × Entry)) : Disk :=
  ⟨Table.ofList (([(["s"], .directory), (["s", "a.css"], .file ".y\x7b\x7d".toUTF8.toList 0)] :
    List (Place × Entry)) ++ written)⟩

/-- One file under two names, under one of which its rule is in use. -/
def twoNames : Ledger :=
  Table.ofList [("a.css", Table.ofList [(".y", .used)]), ("./a.css", Table.ofList [(".y", .unused)])]

theorem clean_inner (v : Status) : clean (Table.ofList [(".y", v)]) ".y\x7b\x7d" =
    .ok (match v with | .used => (".y\x7b\x7d", 0) | .unused => ([], 1)) := by
  have hp : Css.Sheet.parse ".y\x7b\x7d" =
      .ok ⟨[.block ⟨[], some (".y\x7b\x7d" : Text), ".y", [], [(".y" : Text)]⟩], []⟩ := by cbv
  rw [clean, hp]
  cases v with
  | used => rfl
  | unused => rfl

theorem destination_inner {file : Text} {written : List (Place × Entry)}
    (hs : (innerDisk written).resolve "/s" = .ok [("s" : Text)])
    (hf : (innerDisk written).resolve (Path.join "/s" file) = .ok [("s" : Text), "a.css"]) :
    inner.destination (innerDisk written) file = .ok "/o/a.css" := by
  have hs' : Disk.pathOf [("s" : Text)] = "/s" := rfl
  have hr : Path.join "/o" (Path.relative "/s" (Disk.pathOf [("s" : Text), "a.css"])) = "/o/a.css" := rfl
  simp only [Setup.destination, inner, hs, hs', hf, bind, Except.bind, pure, Except.pure, hr]

theorem prepare_inner {file : Text} {v : Status} {written : List (Place × Entry)}
    (hr : Site.read inner.site (fun _ => false) (innerDisk written) file = .ok (".y\x7b\x7d", 4))
    (hd : inner.destination (innerDisk written) file = .ok "/o/a.css") :
    prepare inner Faults.none (innerDisk written) file (Table.ofList [(".y", v)]) =
      .ok (match v with | .used => ⟨file, ".y\x7b\x7d", 4, 0⟩ | .unused => ⟨file, [], 4, 1⟩, "/o/a.css") := by
  simp only [prepare, Faults.none, Bool.false_eq_true, if_false, hr, clean_inner, hd]
  cases v <;> rfl

/-- The output of the file. -/
def written (content : String) : List (Place × Entry) :=
  [(["o"], .directory), (["o", "a.css"], .file content.toUTF8.toList 0)]

theorem decode_inner : ".y\x7b\x7d".toUTF8.toList.length = 4 ∧
    Utf8.decodeLossy (Utf8.dropMark ".y\x7b\x7d".toUTF8.toList) = ".y\x7b\x7d" := by
  constructor <;> cbv

theorem unlinked_inner : Disk.Unlinked (innerDisk []) := by
  have hentries : (innerDisk []).entries.entries =
      [((["s"] : Place), .directory), (["s", "a.css"], .file ".y\x7b\x7d".toUTF8.toList 0)] := rfl
  exact Disk.unlinked_of_entries (by simp [hentries])

theorem unlinked_written (content : String) : Disk.Unlinked (innerDisk (written content)) := by
  have hentries : (innerDisk (written content)).entries.entries = [((["s"] : Place), .directory),
      (["s", "a.css"], .file ".y\x7b\x7d".toUTF8.toList 0), (["o"], .directory),
      (["o", "a.css"], .file content.toUTF8.toList 0)] := rfl
  exact Disk.unlinked_of_entries (by simp [hentries])

/-- The file is read under each of its names. -/
theorem read_of_unlinked {w : List (Place × Entry)} {file : Text} (hu : Disk.Unlinked (innerDisk w))
    (hi : file ≠ SourceKey.inline) (hn : ∀ n ∈ Text.splitOn '/' (Path.join "/s" file), n ≠ ".." ∧ Disk.badName? n = none)
    (hf : (Text.splitOn '/' (Path.join "/s" file)).filter Disk.isOwnName = [("s" : Text), "a.css"])
    (hs : Disk.entry? (innerDisk w) ["s"] = some .directory)
    (hc : Disk.entry? (innerDisk w) ["s", "a.css"] = some (.file ".y\x7b\x7d".toUTF8.toList 0)) :
    Site.read inner.site (fun _ => false) (innerDisk w) file = .ok (".y\x7b\x7d", 4) := by
  have hroot : (innerDisk w).resolve "/s" = .ok [("s" : Text)] := hu.resolve (by decide)
  have hplace : (innerDisk w).resolve (Path.join "/s" file) = .ok [("s" : Text), "a.css"] := by rw [hu.resolve hn, hf]
  have hway : Disk.Leads (innerDisk w) Disk.maxLinks [] [[], ("s" : Text), "a.css"] [("s" : Text), "a.css"] :=
    .stay rfl (.inl rfl) (.down rfl (by decide) (by decide) hs nofun
      (.down hs (by decide) (by decide) hc nofun (.here _ _)))
  have ho : (innerDisk w).open? (Disk.pathOf [("s" : Text), "a.css"]) = .ok (".y\x7b\x7d".toUTF8.toList, 0) := by
    have hfind : (innerDisk w).find (Disk.pathOf [("s" : Text), "a.css"]) = .ok [("s" : Text), "a.css"] :=
      Disk.follow_of_leads hway
    rw [Disk.open?, hfind]
    simp only [hc]
  have hsize : ".y\x7b\x7d".toUTF8.toList.length ≤ inner.site.maxSize := decode_inner.1 ▸ by decide
  rw [Site.read_of_resolve (s := inner.site) hi hroot hplace (by decide) ho hsize rfl, decode_inner.2, decode_inner.1]

theorem read_inner : Site.read inner.site (fun _ => false) (innerDisk []) "a.css" = .ok (".y\x7b\x7d", 4) :=
  read_of_unlinked unlinked_inner (by decide) (by decide) (by decide) rfl rfl

theorem read_inner_again :
    Site.read inner.site (fun _ => false) (innerDisk (written ".y\x7b\x7d")) "./a.css" = .ok (".y\x7b\x7d", 4) :=
  read_of_unlinked (unlinked_written _) (by decide) (by decide) (by decide) rfl rfl

theorem prepare_first : prepare inner Faults.none (innerDisk []) "a.css" (Table.ofList [(".y", .used)]) =
    .ok (⟨"a.css", ".y\x7b\x7d", 4, 0⟩, "/o/a.css") :=
  prepare_inner (v := .used) read_inner
    (destination_inner (unlinked_inner.resolve (by decide)) (unlinked_inner.resolve (by decide)))

theorem prepare_second :
    prepare inner Faults.none (innerDisk (written ".y\x7b\x7d")) "./a.css" (Table.ofList [(".y", .unused)]) =
      .ok (⟨"./a.css", [], 4, 1⟩, "/o/a.css") :=
  prepare_inner (v := .unused) read_inner_again
    (destination_inner ((unlinked_written ".y\x7b\x7d").resolve (by decide))
      ((unlinked_written ".y\x7b\x7d").resolve (by decide)))

theorem cleanFile_first : cleanFile inner Faults.none "a.css" (Table.ofList [(".y", .used)]) (innerDisk []) =
    (.ok ⟨"a.css", ".y\x7b\x7d", 4, 0⟩, innerDisk (written ".y\x7b\x7d")) := by
  have hr : Disk.replaceFile "/o/a.css" ".y\x7b\x7d" false (innerDisk []) =
      (.ok (), innerDisk (written ".y\x7b\x7d")) := by cbv
  exact cleanFile_of_prepare prepare_first hr

theorem cleanFile_second :
    cleanFile inner Faults.none "./a.css" (Table.ofList [(".y", .unused)]) (innerDisk (written ".y\x7b\x7d")) =
      (.ok ⟨"./a.css", [], 4, 1⟩, innerDisk (written "")) := by
  have hr : Disk.replaceFile "/o/a.css" [] false (innerDisk (written ".y\x7b\x7d")) =
      (.ok (), innerDisk (written "")) := by cbv
  exact cleanFile_of_prepare prepare_second hr

theorem filesOf_twoNames : filesOf twoNames = [(("a.css" : Text), Table.ofList [((".y" : Text), Status.used)]),
    ("./a.css", Table.ofList [(".y", .unused)])] := rfl

theorem cleanFiles_twoNames : cleanFiles inner Faults.none (filesOf twoNames) (innerDisk []) =
    (.ok ⟨[⟨"a.css", ".y\x7b\x7d", 4, 0⟩, ⟨"./a.css", [], 4, 1⟩], []⟩, innerDisk (written "")) := by
  have hnil : cleanFiles inner Faults.none [] (innerDisk (written "")) = (.ok ⟨[], []⟩, innerDisk (written "")) := rfl
  have hsecond := cleanFiles_cons_of_ok (e := ("./a.css", Table.ofList [(".y", .unused)])) cleanFile_second hnil
  rw [filesOf_twoNames, cleanFiles_cons_of_ok (e := ("a.css", Table.ofList [(".y", .used)])) cleanFile_first hsecond]

theorem outputs_twoNames : (outputs inner Faults.none (filesOf twoNames) (innerDisk [])).map Output.put =
    [⟨innerDisk [], "/o/a.css", ".y\x7b\x7d"⟩] ++ [⟨innerDisk (written ".y\x7b\x7d"), "/o/a.css", []⟩] := by
  rw [filesOf_twoNames]
  simp only [outputs, cleanFile_first, prepare_first, cleanFile_second, prepare_second]
  rfl

theorem exists_run_twoNames : ∃ r d', run inner Faults.none [] twoNames (innerDisk []) = (.ok r, d') := by
  have hb : bundle [⟨"a.css", ".y\x7b\x7d", 4, 0⟩, ⟨"./a.css", [], 4, 1⟩] = .ok (".y\x7b\x7d" : Text) := by cbv
  obtain ⟨d', hr⟩ : ∃ d', Disk.replaceFile inner.bundlePath ".y\x7b\x7d" false (innerDisk (written "")) =
      (.ok (), d') := ⟨_, Prod.ext (by cbv) rfl⟩
  have hbackup : backUp inner [] twoNames (innerDisk []) = (.ok [], innerDisk []) := rfl
  rw [run, Disk.Action.bind_of_ok hbackup, Disk.Action.bind_of_ok cleanFiles_twoNames,
    Disk.Action.bind_of_ok (writeBundle_of_ok (w := Faults.none) (List.cons_ne_nil _ _) hb hr)]
  exact ⟨_, d', rfl⟩

/-- What stands at the path of the file under its first name is what its second name left of it: nothing. -/
theorem not_holds_twoNames : ∃ r d', run inner Faults.none [] twoNames (innerDisk []) = (.ok r, d') ∧
    ∃ o ∈ outputs inner Faults.none (filesOf twoNames) (innerDisk []), o.cleaned.file ∈ r.files ∧
      ¬ d'.Holds o.path o.cleaned.css := by
  obtain ⟨r, d', hrun⟩ := exists_run_twoNames
  obtain ⟨hfiles, -, hcase⟩ := run_holds_iff hrun
  have hbackup : (backUp inner [] twoNames (innerDisk [])).2 = innerDisk [] := rfl
  have hputs := outputs_twoNames
  simp only [hbackup] at hfiles hcase
  obtain ⟨o, ho, hput⟩ := List.mem_map.1 (hputs ▸ List.mem_append_left _ List.mem_cons_self :
    (⟨innerDisk [], "/o/a.css", ".y\x7b\x7d"⟩ : Put) ∈
      (outputs inner Faults.none (filesOf twoNames) (innerDisk [])).map Output.put)
  refine ⟨r, d', hrun, o, ho, hfiles ▸ List.mem_map_of_mem ho, ?_⟩
  obtain ⟨text, -, hiff⟩ := hcase.resolve_left (List.ne_nil_of_mem ho)
  have hfirst : (innerDisk []).putPlace "/o/a.css" = .ok [("o" : Text), "a.css"] := by cbv
  have hsecond : (innerDisk (written ".y\x7b\x7d")).putPlace "/o/a.css" = .ok [("o" : Text), "a.css"] := by cbv
  have hbundle : (innerDisk (written "")).putPlace inner.bundlePath = .ok [("o" : Text), "b"] := by cbv
  have hne : ¬ [("o" : Text), "a.css"] = [("o" : Text), "b"] := by decide
  change ¬ d'.Holds o.put.path o.put.text
  rw [hiff o.put (List.mem_append_left _ (List.mem_map_of_mem ho)), cleanFiles_twoNames, hputs, hput]
  rintro ⟨p, hp, -, q, hq, hbytes⟩
  obtain rfl := Except.ok.inj (hfirst.symm.trans hp)
  rw [Disk.lastPut_append, Disk.lastPut_append,
    Disk.lastPut_singleton (q := ⟨innerDisk (written ""), inner.bundlePath, text⟩) hbundle, if_neg hne,
    Disk.lastPut_singleton (q := ⟨innerDisk (written ".y\x7b\x7d"), "/o/a.css", []⟩) hsecond, if_pos rfl] at hq
  obtain rfl := Option.some.inj hq
  exact absurd hbytes (by decide)

end Generation
end StylePrune
