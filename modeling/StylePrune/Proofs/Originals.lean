import StylePrune.Proofs.Confinement

/-!
What a run leaves of the stylesheets on the site. The setup only says that the output directory is not below the
site's root. A run keeps the site's files if besides the root is not below the output directory and no link leads
on from there; otherwise what it writes can come back to the site by way of a link or of the output's own tree.
-/

set_option autoImplicit false

namespace StylePrune

namespace Disk

variable {d d' d'' : Disk} {p : Place} {path text : Text} {qs rs : List Put}

/-- The bytes of the file at a place. -/
def content? (d : Disk) (p : Place) : Option Bytes :=
  match d.entry? p with
  | some (.file content _) => some content
  | _ => none

/-- A disk after texts were put on it: a place has the text that came last, and where none came nothing changed,
but for new directories. -/
def Receives (d : Disk) (qs : List Put) (d' : Disk) : Prop := ∀ p, match lastPut qs p with
  | some q => ∃ content, Utf8.encode? q.text = some content ∧ d'.entry? p = some (.file content 0)
  | none => d'.entry? p = d.entry? p ∨ d.entry? p = none ∧ d'.entry? p = some .directory

theorem Receives.trans (h : Receives d qs d') (h' : Receives d' rs d'') : Receives d (qs ++ rs) d'' := by
  intro p
  have hp := h p
  have hp' := h' p
  rw [lastPut_append]
  cases hr : lastPut rs p with
  | some r =>
    rw [hr] at hp'
    exact hp'
  | none =>
    rw [hr] at hp'
    rw [Option.none_or]
    cases hq : lastPut qs p with
    | some q =>
      rw [hq] at hp
      obtain ⟨content, hc, hf⟩ := hp
      rcases hp' with he | ⟨hn, -⟩
      · exact ⟨content, hc, he.trans hf⟩
      · simp [hf] at hn
    | none =>
      rw [hq] at hp
      rcases hp' with he | ⟨hn, hd⟩
      · simpa only [he] using hp
      · rcases hp with hp | ⟨-, hp⟩
        · exact .inr ⟨hp ▸ hn, hd⟩
        · simp [hp] at hn

theorem Evolves.receives {made : Place → Prop} (h : Evolves made (fun _ => False) d d') : Receives d [] d' := by
  intro p
  rcases h p with hp | ⟨-, hn, hd⟩ | ⟨hf, -⟩
  · exact .inl hp
  · exact .inr ⟨hn, hd⟩
  · exact hf.elim

/-- A write that succeeds puts its text where the path leads. -/
theorem receives_of_replaceFile {refuse : Bool} (h : replaceFile path text refuse d = (.ok (), d')) :
    Receives d [⟨d, path, text⟩] d' := by
  have hm : Evolves anywhere (fun _ => False) d (makeDirectories (Path.names (Path.normalize path)).dropLast d).2 :=
    makeDirectories_evolves _ d fun _ _ _ _ _ _ _ => trivial
  obtain ⟨d₁, rfl, ⟨⟨x, hx⟩, -⟩ | ⟨-, p, content, ht, hn, hc, rfl⟩⟩ := replaceFile_cases h
  · cases hx
  · intro r
    have hplace : Put.place ⟨d, path, text⟩ = .ok p := ht
    rw [lastPut_singleton hplace]
    by_cases hr : r = p
    · rw [if_pos hr]
      exact ⟨content, hc, by rw [entry?_set (ne_nil_of_target ht), if_pos hr]⟩
    · rw [if_neg hr]
      simp only [entry?_set (ne_nil_of_target ht), if_neg hr]
      exact hm.receives r

theorem receives_of_replaceFile_error {refuse : Bool} {x : WriteError}
    (h : replaceFile path text refuse d = (.error x, d')) : Receives d [] d' := by
  have hm : Evolves anywhere (fun _ => False) d (makeDirectories (Path.names (Path.normalize path)).dropLast d).2 :=
    makeDirectories_evolves _ d fun _ _ _ _ _ _ _ => trivial
  obtain ⟨d₁, rfl, ⟨-, rfl⟩ | ⟨hr, -⟩⟩ := replaceFile_cases h
  · exact hm.receives
  · cases hr

theorem Receives.content?_eq (h : Receives d qs d') (p : Place) :
    d'.content? p = (lastPut qs p).elim (d.content? p) fun q => Utf8.encode? q.text := by
  have hp := h p
  cases hq : lastPut qs p with
  | some q =>
    rw [hq] at hp
    obtain ⟨content, hc, hf⟩ := hp
    rw [content?, hf, Option.elim_some, hc]
  | none =>
    rw [hq] at hp
    rw [Option.elim_none, content?, content?]
    rcases hp with he | ⟨hn, hd⟩
    · rw [he]
    · rw [hn, hd]

/-- Files stay as they are if and only if every text that came upon one of them has its bytes. -/
theorem Receives.content?_eq_iff (h : Receives d qs d') (within : Place → Prop) :
    (∀ p, within p → d'.content? p = d.content? p) ↔
      ∀ p q, within p → lastPut qs p = some q → Utf8.encode? q.text = d.content? p := by
  constructor
  · intro hk p q hp hq
    rw [← hk p hp, h.content?_eq, hq, Option.elim_some]
  · intro hk p hp
    rw [h.content?_eq]
    cases hq : lastPut qs p with
    | some q => exact hk p q hp hq
    | none => rfl

theorem Evolves.content?_eq {made written : Place → Prop} (h : Evolves made written d d') (hw : ¬ written p) :
    d'.content? p = d.content? p := by
  rw [content?, content?]
  rcases h p with hp | ⟨-, hn, hd⟩ | ⟨hp, -⟩
  · rw [hp]
  · rw [hn, hd]
  · exact absurd hp hw

/-- Neither of two places that are not below one another has anything below it in common with the other. -/
theorem not_isBelow_of_isBelow {a b : Place} (hab : isBelow a b = false) (hba : isBelow b a = false)
    (h : isBelow a p = true) : isBelow b p = false := by
  by_contra hb
  rw [Bool.not_eq_false, isBelow_iff] at hb
  rcases List.prefix_or_prefix_of_prefix (isBelow_iff.1 h) hb with hp | hp
  · simp [isBelow_iff.2 hp] at hab
  · simp [isBelow_iff.2 hp] at hba

end Disk

namespace Generation

open Disk (Action Put Receives lastPut)
open Disk.Action (Keeps)

variable {u : Setup} {w : Faults} {d d' : Disk}

/-- What a run puts on the disk: a cleaned text at the path that belongs to it, or the bundle. -/
def Product (u : Setup) (w : Faults) (q : Put) : Prop :=
  (∃ file st c, prepare u w q.disk file st = .ok (c, q.path) ∧ q.text = c.css) ∨
    ∃ cs, bundle cs = .ok q.text ∧ q.path = u.bundlePath

/-- A disk is left with texts of a kind if every text that a run puts there as a whole is of that kind. -/
theorem withstands_puts {P : Put → Prop} (d₀ : Disk)
    (hcleaned : ∀ d file st c path, prepare u w d file st = .ok (c, path) →
      (Disk.replaceFile path c.css (w.unwritable (.cleaned file)) d).1 = .ok () → P ⟨d, path, c.css⟩)
    (hbundle : ∀ d cs css, bundle cs = .ok css →
      (Disk.replaceFile u.bundlePath css (w.unwritable .bundle) d).1 = .ok () → P ⟨d, u.bundlePath, css⟩) :
    Withstands u w fun d => ∃ qs, (∀ q ∈ qs, P q) ∧ Receives d₀ qs d := by
  have put (d : Disk) (path text : Text) (refuse : Bool)
      (hp : (Disk.replaceFile path text refuse d).1 = .ok () → P ⟨d, path, text⟩)
      (h : ∃ qs, (∀ q ∈ qs, P q) ∧ Receives d₀ qs d) :
      ∃ qs, (∀ q ∈ qs, P q) ∧ Receives d₀ qs (Disk.replaceFile path text refuse d).2 := by
    obtain ⟨qs, hqs, hr⟩ := h
    cases hw : Disk.replaceFile path text refuse d with
    | mk r d₁ =>
      cases r with
      | ok _ =>
        have hput := List.forall_mem_singleton.2 (hp (congrArg Prod.fst hw))
        exact ⟨_, List.forall_mem_append.2 ⟨hqs, hput⟩, hr.trans (Disk.receives_of_replaceFile hw)⟩
      | error x => exact ⟨qs, hqs, by simpa using hr.trans (Disk.receives_of_replaceFile_error hw)⟩
  exact ⟨fun d file st c path hp h => put d path c.css _ (hcleaned d file st c path hp) h,
    fun d cs css hb h => put d u.bundlePath css _ (hbundle d cs css hb) h⟩

theorem withstands_receives (u : Setup) (w : Faults) (d₀ : Disk) :
    Withstands u w fun d => ∃ qs, (∀ q ∈ qs, Product u w q) ∧ Receives d₀ qs d :=
  withstands_puts d₀ (fun _ file st c _ hp _ => .inl ⟨file, st, c, hp, rfl⟩) fun _ cs _ hb _ => .inr ⟨cs, hb, rfl⟩

theorem check_eq_ok (h : u.check d = .ok ()) : ∃ root out, d.resolve u.site.root = .ok root ∧
    d.resolve u.output = .ok out ∧ Disk.isBelow root out = false := by
  unfold Setup.check Disk.leadsBelow at h
  cases hr : d.resolve u.site.root with
  | error b => simp [hr, bind, Except.bind] at h
  | ok root =>
    cases ho : d.resolve u.output with
    | error b => simp [hr, ho, bind, Except.bind] at h
    | ok out =>
      refine ⟨root, out, rfl, rfl, ?_⟩
      by_contra hb
      simp [hr, ho, bind, Except.bind, pure, Except.pure, Bool.not_eq_false _ ▸ hb] at h

/-- A run without backups under a setup that passed its check, however it ends, keeps the files at and below the
site's root if and only if each text that it puts upon one of them has the same bytes. It does so if the root is
not below the output directory either, and no link is below that and the name of the bundle goes nowhere else. -/
theorem run_keeps_originals {moment : Text} {l : Ledger} {r : Except RunError Result} (hb : u.backup = none)
    (hc : u.check d = .ok ()) (h : run u w moment l d = (r, d')) :
    ∃ root out, d.resolve u.site.root = .ok root ∧ d.resolve u.output = .ok out ∧ Disk.isBelow root out = false ∧
      (∃ qs, (∀ q ∈ qs, Product u w q) ∧ Receives d qs d' ∧
        ((∀ p, Disk.isBelow root p = true → d'.content? p = d.content? p) ↔
          ∀ p q, Disk.isBelow root p = true → lastPut qs p = some q → Utf8.encode? q.text = d.content? p)) ∧
      (u.Confined d → Disk.isBelow out root = false →
        ∀ p, Disk.isBelow root p = true → d'.content? p = d.content? p) := by
  obtain ⟨root, out, hroot, hout, hbelow⟩ := check_eq_ok hc
  have hbackup (I : Disk → Prop) : Keeps I (backUp u moment l) := by
    rw [backUp, hb]
    exact Keeps.pure []
  refine ⟨root, out, hroot, hout, hbelow, ?_, fun hconf hapart p hp => ?_⟩
  · have hrun := (withstands_receives u w d).run (hbackup _) d ⟨[], by simp, fun p => .inl rfl⟩
    rw [h] at hrun
    obtain ⟨qs, hqs, hr⟩ := hrun
    exact ⟨qs, hqs, hr, hr.content?_eq_iff (Disk.isBelow root · = true)⟩
  · have hrun := (hconf.withstands (Disk.Inherits.refl d) w).run (hbackup _) d (Disk.Evolves.refl _ _ d)
    rw [h] at hrun
    refine hrun.content?_eq ?_
    rintro ⟨folder, hf, place, hplace, hroom⟩
    obtain rfl : folder = u.output := by simpa [Setup.folders, hb] using hf
    obtain rfl := Except.ok.inj (hout.symm.trans hplace)
    simp [Disk.not_isBelow_of_isBelow hbelow hapart hp] at hroom

theorem destination_of_resolve {file : Text} {root place : Place} (hr : d.resolve u.site.root = .ok root)
    (hp : d.resolve (Path.join (Disk.pathOf root) file) = .ok place) : u.destination d file =
      .ok (Path.join u.output (Path.relative (Disk.pathOf root) (Disk.pathOf place))) := by
  simp [Setup.destination, hr, hp, bind, Except.bind, pure, Except.pure]

/-- A sheet with one rule. -/
def ruleBytes : Bytes := [0x2E, 0x79, 0x7B, 0x7D]

/-- The disk of a site with a sheet in a directory, to which a link in the output directory leads. -/
def linkedDisk (sheet : Bytes) (written : List (Place × Entry)) : Disk :=
  ⟨Table.ofList (([(["s"], .directory), (["s", "t"], .directory), (["s", "t", "a.css"], .file sheet 0),
    (["o"], .directory), (["o", "t"], .link "/s/t")] : List (Place × Entry)) ++ written)⟩

theorem prepare_linked :
    prepare inner Faults.none (linkedDisk ruleBytes []) "t/a.css" (Table.ofList [(".y", .unused)]) =
      .ok (⟨"t/a.css", [], 4, 1⟩, "/o/t/a.css") := by
  have hs : (linkedDisk ruleBytes []).resolve "/s" = .ok [("s" : Text)] := by cbv
  have hf : (linkedDisk ruleBytes []).resolve (Path.join (Disk.pathOf [("s" : Text)]) "t/a.css") =
      .ok [("s" : Text), "t", "a.css"] := by cbv
  have ho : (linkedDisk ruleBytes []).open? (Disk.pathOf [("s" : Text), "t", "a.css"]) = .ok (ruleBytes, 0) := by cbv
  have hr : Site.read inner.site (fun _ => false) (linkedDisk ruleBytes []) "t/a.css" = .ok (".y\x7b\x7d", 4) := by
    rw [Site.read_of_resolve (s := inner.site) (by decide) hs hf (by decide) ho (by cbv) rfl]
    cbv
  have hj : Path.join "/o" (Path.relative (Disk.pathOf [("s" : Text)]) (Disk.pathOf [("s" : Text), "t", "a.css"])) =
      "/o/t/a.css" := rfl
  have hd : inner.destination (linkedDisk ruleBytes []) "t/a.css" = .ok "/o/t/a.css" :=
    (destination_of_resolve (u := inner) hs hf).trans (congrArg Except.ok hj)
  have hc := clean_inner .unused
  simp only [prepare, Faults.none, Bool.false_eq_true, if_false, hr, hc, hd]

/-- The run writes upon the sheet of the site: nothing is left of it. -/
theorem exists_run_linked : ∃ r,
    run inner Faults.none [] (Table.ofList [("t/a.css", Table.ofList [(".y", .unused)])]) (linkedDisk ruleBytes []) =
      (.ok r, linkedDisk [] [(["o", "b"], .file [] 0)]) := by
  let st : Statuses := Table.ofList [(".y", .unused)]
  have hsheet : Disk.replaceFile "/o/t/a.css" [] false (linkedDisk ruleBytes []) = (.ok (), linkedDisk [] []) := by
    cbv
  have hclean : cleanFile inner Faults.none "t/a.css" st (linkedDisk ruleBytes []) =
      (.ok ⟨"t/a.css", [], 4, 1⟩, linkedDisk [] []) := cleanFile_of_prepare prepare_linked hsheet
  have hnil : cleanFiles inner Faults.none [] (linkedDisk [] []) = (.ok ⟨[], []⟩, linkedDisk [] []) := rfl
  have hfiles := cleanFiles_cons_of_ok (e := ("t/a.css", st)) hclean hnil
  have hb : bundle [⟨"t/a.css", [], 4, 1⟩] = .ok [] := by cbv
  have hbundle : Disk.replaceFile inner.bundlePath [] false (linkedDisk [] []) =
      (.ok (), linkedDisk [] [(["o", "b"], .file [] 0)]) := by cbv
  have hbackup (l : Ledger) (d : Disk) : backUp inner [] l d = (.ok [], d) := rfl
  have hes : filesOf (Table.ofList [("t/a.css", st)]) = [(("t/a.css" : Text), st)] := rfl
  rw [run, Disk.Action.bind_of_ok (hbackup _ _), hes, Disk.Action.bind_of_ok hfiles,
    Disk.Action.bind_of_ok (writeBundle_of_ok (w := Faults.none) (List.cons_ne_nil _ _) hb hbundle)]
  exact ⟨_, rfl⟩

/-- The output directory is not inside the site, and yet a cleaned text comes upon a sheet of the site. -/
theorem not_keeps_originals_linked : inner.check (linkedDisk ruleBytes []) = .ok () ∧
    ¬ inner.Confined (linkedDisk ruleBytes []) ∧ ∃ r d', run inner Faults.none []
      (Table.ofList [("t/a.css", Table.ofList [(".y", .unused)])]) (linkedDisk ruleBytes []) = (.ok r, d') ∧
        ∃ p q, Disk.isBelow ["s"] p = true ∧ Product inner Faults.none q ∧
          d'.content? p = Utf8.encode? q.text ∧ d'.content? p ≠ (linkedDisk ruleBytes []).content? p := by
  have hcheck : inner.check (linkedDisk ruleBytes []) = .ok () := by cbv
  obtain ⟨r, hr⟩ := exists_run_linked
  obtain ⟨root, out, hroot, hout, -, ⟨qs, hqs, hrec, hiff⟩, hconf⟩ := run_keeps_originals rfl hcheck hr
  have hs : (linkedDisk ruleBytes []).resolve inner.site.root = .ok [("s" : Text)] := by cbv
  have ho : (linkedDisk ruleBytes []).resolve inner.output = .ok [("o" : Text)] := by cbv
  obtain rfl := Except.ok.inj (hs.symm.trans hroot)
  obtain rfl := Except.ok.inj (ho.symm.trans hout)
  have hbelow : Disk.isBelow [("s" : Text)] ["s", "t", "a.css"] = true := by decide
  have hne : (linkedDisk [] [(["o", "b"], .file [] 0)]).content? [("s" : Text), "t", "a.css"] ≠
      (linkedDisk ruleBytes []).content? ["s", "t", "a.css"] := by decide
  refine ⟨hcheck, fun hc => hne (hconf hc (by decide) _ hbelow), r, _, hr, ?_⟩
  obtain ⟨p, q, hp, hq, hbytes⟩ : ∃ p q, Disk.isBelow [("s" : Text)] p = true ∧ lastPut qs p = some q ∧
      ¬ Utf8.encode? q.text = (linkedDisk ruleBytes []).content? p := by
    by_contra hnone
    refine hne (hiff.2 (fun p q hp hq => ?_) _ hbelow)
    by_contra hb
    exact hnone ⟨p, q, hp, hq, hb⟩
  have hcontent := hrec.content?_eq p
  rw [hq, Option.elim_some] at hcontent
  exact ⟨p, q, hp, hqs q (List.mem_of_mem_filter (List.mem_of_getLast? hq)), hcontent, hcontent ▸ hbytes⟩

end Generation
end StylePrune
