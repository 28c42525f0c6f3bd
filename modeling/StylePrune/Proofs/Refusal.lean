import StylePrune.Proofs.Accounting
import StylePrune.Proofs.Disk.Staging
import StylePrune.Proofs.Originals

/-!
What writes that fail leave behind. Every file on the disk is as it was before the run or holds the complete text of
one write that succeeded, and a file that could not be written is only reported. If the bundle cannot be written the
run fails; at the bundle's place is then what was there before, unless the run put a cleaned text there.
-/

set_option autoImplicit false

namespace StylePrune.Generation

open Disk (Action Put Receives lastPut)

variable {u : Setup} {w : Faults} {d d' : Disk} {moment : Text} {l : Ledger} {es : List (Text × Statuses)}

/-- A cleaned text or a bundle that was written as a whole. -/
def Succeeded (u : Setup) (w : Faults) (q : Put) : Prop :=
  (∃ file st c, prepare u w q.disk file st = .ok (c, q.path) ∧ q.text = c.css ∧
      w.unwritable (.cleaned file) = false ∧ (Disk.replaceFile q.path q.text false q.disk).1 = .ok ()) ∨
    ∃ cs, bundle cs = .ok q.text ∧ q.path = u.bundlePath ∧ w.unwritable .bundle = false ∧
      (Disk.replaceFile q.path q.text false q.disk).1 = .ok ()

theorem eq_false_of_replaceFile {path text : Text} {refuse : Bool}
    (h : (Disk.replaceFile path text refuse d).1 = .ok ()) : refuse = false := by
  cases refuse with
  | false => rfl
  | true =>
    obtain ⟨_, d₁, -, h₁⟩ := Action.bind_eq_ok (Prod.ext h rfl : Disk.replaceFile path text true d = (.ok (), _))
    split at h₁ <;> cases h₁

theorem withstands_succeeded (u : Setup) (w : Faults) (d₀ : Disk) :
    Withstands u w fun d => ∃ qs, (∀ q ∈ qs, Succeeded u w q) ∧ Receives d₀ qs d := by
  refine withstands_puts d₀ (fun d file st c path hp hr => ?_) fun d cs css hb hr => ?_
  · have hw := eq_false_of_replaceFile hr
    exact .inl ⟨file, st, c, hp, rfl, hw, hw ▸ hr⟩
  · have hw := eq_false_of_replaceFile hr
    exact .inr ⟨cs, hb, rfl, hw, hw ▸ hr⟩

theorem succeeded_of_outputs : ∀ o ∈ outputs u w es d,
    w.unwritable (.cleaned o.cleaned.file) = false ∧ Succeeded u w o.put := by
  induction es generalizing d with
  | nil => simp [outputs]
  | cons e es ih =>
    cases hc : cleanFile u w e.1 e.2 d with
    | mk r d₁ =>
      cases r with
      | ok c =>
        obtain ⟨path, hp, hr⟩ := cleanFile_eq_ok hc
        have hfile := file_of_prepare hp
        have hw := eq_false_of_replaceFile (congrArg Prod.fst hr)
        have hout : outputs u w (e :: es) d = ⟨d, c, path⟩ :: outputs u w es d₁ := by rw [outputs, hc, hp]
        rw [hout]
        exact List.forall_mem_cons.2 ⟨⟨hfile ▸ hw, .inl ⟨e.1, e.2, c, hp, rfl, hw, congrArg Prod.fst (hw ▸ hr)⟩⟩, ih⟩
      | error x =>
        rw [outputs_cons_of_error es hc]
        exact ih

theorem receives_cleanFiles {o : Outcome} (h : cleanFiles u w es d = (.ok o, d')) :
    Receives d ((outputs u w es d).map Output.put) d' := by
  induction es generalizing d o with
  | nil =>
    obtain ⟨-, rfl⟩ := Prod.mk.inj h
    exact fun p => .inl rfl
  | cons e es ih =>
    obtain ⟨rest, d₁, hrest, ⟨c, hc, -⟩ | ⟨x, hx, -, -⟩⟩ := cleanFiles_cons_eq_ok h
    · obtain ⟨path, hp, hr⟩ := cleanFile_eq_ok hc
      have hout : outputs u w (e :: es) d = ⟨d, c, path⟩ :: outputs u w es d₁ := by rw [outputs, hc, hp]
      rw [hout]
      exact (Disk.receives_of_replaceFile hr).trans (ih hrest)
    · rw [outputs_cons_of_error es hx]
      rcases cleanFile_error_cases hx with ⟨-, rfl⟩ | ⟨c, path, e, -, hr, -⟩
      · exact ih hrest
      · exact (Disk.receives_of_replaceFile_error hr).trans (ih hrest)

theorem ne_bundleNotWritten_of_prepare {file : Text} {st : Statuses} {x : RunError} {e : Disk.Errno}
    (h : prepare u w d file st = .error (.fatal x)) : x ≠ .bundleNotWritten e := by
  rintro rfl
  unfold prepare at h
  split at h
  · cases h
  · split at h
    · cases h
    · cases h
    · split at h
      · cases h
      · cases h
      · split at h <;> cases h

theorem writeBundle_eq_bundleNotWritten_iff {cs : List Cleaned} {e : Disk.Errno} :
    writeBundle u w cs d = (.error (.bundleNotWritten e), d') ↔ cs ≠ [] ∧ ∃ text, bundle cs = .ok text ∧
      Disk.replaceFile u.bundlePath text (w.unwritable .bundle) d = (.error (.errno e), d') := by
  by_cases hc : cs = []
  · subst hc
    exact iff_of_false (fun h => by cases h) fun h => h.1 rfl
  rw [writeBundle, if_neg (by simpa using hc)]
  cases hb : bundle cs with
  | error t => exact iff_of_false (fun h => by cases h) (by simp)
  | ok text =>
    simp only [ne_eq, hc, not_false_eq_true, true_and, Except.ok.injEq, exists_eq_left']
    constructor
    · intro h
      rcases Action.bind_eq_error h with hm | ⟨_, d₁, -, h₁⟩
      · obtain ⟨x, hr, hx⟩ := Action.mapError_eq_error hm
        cases x with
        | unspellable => cases hx
        | errno f =>
          obtain rfl := RunError.bundleNotWritten.inj hx
          exact hr
      · cases (Prod.mk.inj h₁).1
    · intro h
      exact Action.bind_of_error (Action.mapError_of_error h _) _

/-- A run fails for the bundle if all files are tried, some are cleaned, and their bundle cannot be written. -/
theorem run_eq_bundleNotWritten_iff {e : Disk.Errno} : run u w moment l d = (.error (.bundleNotWritten e), d') ↔
    ∃ failed d₀ o d₁ text, backUp u moment l d = (.ok failed, d₀) ∧
      cleanFiles u w (filesOf l) d₀ = (.ok o, d₁) ∧ o.cleaned ≠ [] ∧ bundle o.cleaned = .ok text ∧
      Disk.replaceFile u.bundlePath text (w.unwritable .bundle) d₁ = (.error (.errno e), d') := by
  constructor
  · intro h
    rcases Action.bind_eq_error h with hb | ⟨failed, d₀, hb, h₁⟩
    · cases hu : u.backup with
      | none => cases (backUp_of_none hu).symm.trans hb
      | some dir =>
        rw [backUp, hu] at hb
        obtain ⟨x, -, hx⟩ := Action.mapError_eq_error hb
        cases hx
    · rcases Action.bind_eq_error h₁ with hc | ⟨o, d₁, hc, h₂⟩
      · obtain ⟨_, f, _, _, _, -, -, hp⟩ := cleanFiles_eq_error_iff.1 (congrArg Prod.fst hc)
        exact absurd rfl (ne_bundleNotWritten_of_prepare hp)
      · rcases Action.bind_eq_error h₂ with hw | ⟨css, d₂, -, h₃⟩
        · obtain ⟨hne, text, htext, hr⟩ := writeBundle_eq_bundleNotWritten_iff.1 hw
          exact ⟨failed, d₀, o, d₁, text, hb, hc, hne, htext, hr⟩
        · cases (Prod.mk.inj h₃).1
  · rintro ⟨failed, d₀, o, d₁, text, hb, hc, hne, htext, hr⟩
    have hw := writeBundle_eq_bundleNotWritten_iff.2 ⟨hne, text, htext, hr⟩
    rw [run, Action.bind_of_ok hb, Action.bind_of_ok hc, Action.bind_of_error hw]

/-- The bundle cannot be written, and nothing else is wrong. -/
def bundleRefused : Faults := { Faults.none with unwritable := fun x => x = .bundle }

/-- The disk of a site with a sheet that has the bundle's name, and the bundle. -/
def namesakeDisk (bundle : Bytes) : Disk :=
  ⟨Table.ofList [(["s"], .directory), (["s", "b"], .file ruleBytes 0), (["o"], .directory),
    (["o", "b"], .file bundle 0)]⟩

theorem prepare_namesake : prepare inner bundleRefused (namesakeDisk [0x7D]) "b" (Table.ofList [(".y", .used)]) =
    .ok (⟨"b", ".y\x7b\x7d", 4, 0⟩, "/o/b") := by
  have hs : (namesakeDisk [0x7D]).resolve "/s" = .ok [("s" : Text)] := by cbv
  have hf : (namesakeDisk [0x7D]).resolve (Path.join (Disk.pathOf [("s" : Text)]) "b") = .ok [("s" : Text), "b"] := by
    cbv
  have ho : (namesakeDisk [0x7D]).open? (Disk.pathOf [("s" : Text), "b"]) = .ok (ruleBytes, 0) := by cbv
  have hr : Site.read inner.site (fun _ => false) (namesakeDisk [0x7D]) "b" = .ok (".y\x7b\x7d", 4) := by
    rw [Site.read_of_resolve (s := inner.site) (by decide) hs hf (by decide) ho (by cbv) rfl]
    cbv
  have hj : Path.join "/o" (Path.relative (Disk.pathOf [("s" : Text)]) (Disk.pathOf [("s" : Text), "b"])) = "/o/b" := rfl
  have hd : inner.destination (namesakeDisk [0x7D]) "b" = .ok "/o/b" :=
    (destination_of_resolve (u := inner) hs hf).trans (congrArg Except.ok hj)
  have hc := clean_inner .used
  simp only [prepare, bundleRefused, Faults.none, Bool.false_eq_true, if_false, hr, hc, hd]

end StylePrune.Generation
