import StylePrune.Proofs.Confinement
import StylePrune.Proofs.Failure

/-!
What a run says of itself. Each file of the ledger is either among the cleaned ones or costs one line, both in the
ledger's order, and the statistics count the cleaned ones and the bundle made from them.
-/

set_option autoImplicit false

namespace StylePrune

namespace Utf8

theorem utf8Size_eq (c : Char) : c.utf8Size =
    if c.toNat < 0x80 then 1 else if c.toNat < 0x800 then 2 else if c.toNat < 0x10000 then 3 else 4 := by
  simp only [Char.utf8Size, UInt32.le_iff_toNat_le, ← Nat.lt_succ_iff]
  rfl

theorem length_encodeChar (c : Char) : (encodeChar (.char c)).length = c.utf8Size := by
  have hn : (CodePoint.char c).toNat = c.toNat := rfl
  rw [utf8Size_eq, encodeChar, hn]
  by_cases h1 : c.toNat < 0x80
  · rw [if_pos h1, if_pos h1, List.length_singleton]
  rw [if_neg h1, if_neg h1]
  by_cases h2 : c.toNat < 0x800
  · rw [if_pos h2, if_pos h2, List.length_cons, List.length_singleton]
  rw [if_neg h2, if_neg h2]
  by_cases h3 : c.toNat < 0x10000
  · rw [if_pos h3, if_pos h3, List.length_cons, List.length_cons, List.length_singleton]
  · rw [if_neg h3, if_neg h3, List.length_cons, List.length_cons, List.length_cons, List.length_singleton]

/-- A text that can be spelled has the size of its bytes. -/
theorem length_of_encode? {s : Text} {bytes : Bytes} (h : encode? s = some bytes) :
    bytes.length = Text.utf8Size s := by
  unfold encode? at h
  split at h
  · rename_i hs
    obtain rfl := Option.some.inj h
    clear h
    induction s with
    | nil => rfl
    | cons c s ih =>
      obtain ⟨hc, hs⟩ := Bool.and_eq_true_iff.1 (List.all_cons ▸ hs)
      rw [List.flatMap_cons, List.length_append, ih hs, Text.utf8Size, Text.utf8Size, List.foldr_cons]
      cases c with
      | char c => rw [length_encodeChar]; rfl
      | surrogate n => cases hc
  · cases h

end Utf8

namespace Site

variable {s : Site} {locked : Text → Bool} {d : Disk} {file : Text}

theorem locate_ne_inline (hi : file ≠ SourceKey.inline) : locate s d file ≠ .error (.unavailable .inline) := by
  unfold locate
  rw [if_neg hi]
  split
  · nofun
  · split
    · nofun
    · split_ifs <;> nofun

theorem read_ne_inline (hi : file ≠ SourceKey.inline) : read s locked d file ≠ .error (.unavailable .inline) := by
  intro h
  unfold read at h
  split at h
  · rename_i e he
    exact locate_ne_inline hi (Except.error.inj h ▸ he)
  · split at h
    · cases h
    · split_ifs at h <;> cases h

end Site

namespace Generation

open Disk (Action)
open Disk.Action (Keeps)

variable {u : Setup} {w : Faults} {d d' : Disk} {file : Text} {st : Statuses} {es : List (Text × Statuses)}

/-- What was wrong with each file that was not cleaned, in order. -/
def failures (u : Setup) (w : Faults) : List (Text × Statuses) → Disk → List (Text × FileError)
  | [], _ => []
  | e :: es, d => match cleanFile u w e.1 e.2 d with
    | (.ok _, d') => failures u w es d'
    | (.error x, d') => (e.1, x) :: failures u w es d'

/-- One more file is cleaned, or it costs a line. -/
theorem cleanFiles_cons_eq_ok {e : Text × Statuses} {o : Outcome} (h : cleanFiles u w (e :: es) d = (.ok o, d')) :
    ∃ rest d₁, cleanFiles u w es d₁ = (.ok rest, d') ∧
      ((∃ c, cleanFile u w e.1 e.2 d = (.ok c, d₁) ∧ o = { rest with cleaned := c :: rest.cleaned }) ∨
        ∃ x, cleanFile u w e.1 e.2 d = (.error x, d₁) ∧ (∀ y, x ≠ .fatal y) ∧
          o = { rest with errors := x.line e.1 :: rest.errors }) := by
  rw [cleanFiles, Action.attempt_bind] at h
  cases hc : cleanFile u w e.1 e.2 d with
  | mk r d₁ =>
    rw [hc] at h
    cases r with
    | ok c =>
      obtain ⟨rest, d₂, hrest, h⟩ := Action.bind_eq_ok h
      obtain ⟨ho, rfl⟩ := Prod.mk.inj h
      exact ⟨rest, d₁, hrest, .inl ⟨c, rfl, (Except.ok.inj ho).symm⟩⟩
    | error x =>
      cases x with
      | fatal y =>
        obtain ⟨_, d₂, -, h⟩ := Action.bind_eq_ok h
        cases (Prod.mk.inj h).1
      | unavailable _ | illFormed _ | notWritten _ =>
        obtain ⟨rest, d₂, hrest, h⟩ := Action.bind_eq_ok h
        obtain ⟨ho, rfl⟩ := Prod.mk.inj h
        exact ⟨rest, d₁, hrest, .inr ⟨_, rfl, by simp, (Except.ok.inj ho).symm⟩⟩

theorem outputs_cons_of_ok {e : Text × Statuses} {c : Cleaned} {d₁ : Disk} (es : List (Text × Statuses))
    (h : cleanFile u w e.1 e.2 d = (.ok c, d₁)) :
    ∃ path, prepare u w d e.1 e.2 = .ok (c, path) ∧
      outputs u w (e :: es) d = ⟨d, c, path⟩ :: outputs u w es d₁ := by
  obtain ⟨path, hp, -⟩ := cleanFile_eq_ok h
  exact ⟨path, hp, by rw [outputs, h, hp]⟩

theorem outputs_cons_of_error {e : Text × Statuses} {x : FileError} {d₁ : Disk} (es : List (Text × Statuses))
    (h : cleanFile u w e.1 e.2 d = (.error x, d₁)) : outputs u w (e :: es) d = outputs u w es d₁ := by
  rw [outputs, h]

theorem file_of_prepare {c : Cleaned} {path : Text} (h : prepare u w d file st = .ok (c, path)) : c.file = file :=
  (prepare_arises (l := Table.empty.insert file st) (by rw [Table.get?_insert, if_pos rfl]) h).1

theorem errors_of_cleanFiles {o : Outcome} (h : cleanFiles u w es d = (.ok o, d')) :
    o.errors = (failures u w es d).map (fun f => f.2.line f.1) ∧ ∀ f ∈ failures u w es d, ∀ y, f.2 ≠ .fatal y := by
  induction es generalizing d o with
  | nil =>
    obtain rfl := Except.ok.inj (Prod.mk.inj h).1
    exact ⟨rfl, by simp [failures]⟩
  | cons e es ih =>
    obtain ⟨rest, d₁, hrest, ⟨c, hc, rfl⟩ | ⟨x, hx, hmild, rfl⟩⟩ := cleanFiles_cons_eq_ok h
    · have hf : failures u w (e :: es) d = failures u w es d₁ := by rw [failures, hc]
      rw [hf]
      exact ih (o := rest) hrest
    · have hf : failures u w (e :: es) d = (e.1, x) :: failures u w es d₁ := by rw [failures, hx]
      obtain ⟨herrors, hall⟩ := ih hrest
      rw [hf]
      exact ⟨by rw [List.map_cons, herrors], List.forall_mem_cons.2 ⟨hmild, hall⟩⟩

theorem files_outputs_sublist (es : List (Text × Statuses)) (d : Disk) :
    ((outputs u w es d).map (·.cleaned.file)).Sublist (es.map Prod.fst) := by
  induction es generalizing d with
  | nil => exact List.Sublist.refl _
  | cons e es ih =>
    cases hc : cleanFile u w e.1 e.2 d with
    | mk r d₁ =>
      cases r with
      | ok c =>
        obtain ⟨path, hp, hout⟩ := outputs_cons_of_ok es hc
        rw [hout, List.map_cons, List.map_cons, file_of_prepare hp]
        exact (ih d₁).cons_cons e.1
      | error x =>
        rw [outputs_cons_of_error es hc]
        exact (ih d₁).cons e.1

/-- Of files that are named once each, those that are not cleaned fail. -/
theorem files_failures (hn : (es.map Prod.fst).Nodup) (d : Disk) : (failures u w es d).map Prod.fst =
    (es.map Prod.fst).filter (· ∉ (outputs u w es d).map (·.cleaned.file)) := by
  induction es generalizing d with
  | nil => rfl
  | cons e es ih =>
    obtain ⟨he, hn⟩ := List.nodup_cons.1 hn
    cases hc : cleanFile u w e.1 e.2 d with
    | mk r d₁ =>
      cases r with
      | ok c =>
        obtain ⟨path, hp, hout⟩ := outputs_cons_of_ok es hc
        have hf : failures u w (e :: es) d = failures u w es d₁ := by rw [failures, hc]
        rw [hf, hout, ih hn, List.map_cons, List.map_cons, file_of_prepare hp,
          List.filter_cons_of_neg (by simp)]
        refine List.filter_congr fun k hk => ?_
        have hne : k ≠ e.1 := fun h => he (h ▸ hk)
        simp [hne]
      | error x =>
        have hf : failures u w (e :: es) d = (e.1, x) :: failures u w es d₁ := by rw [failures, hc]
        have hout : e.1 ∉ (outputs u w es d₁).map (·.cleaned.file) :=
          fun h => he ((files_outputs_sublist es d₁).subset h)
        rw [hf, outputs_cons_of_error es hc, List.map_cons, List.map_cons, ih hn,
          List.filter_cons_of_pos (by simpa using hout)]

section Turns

variable {I : Disk → Prop} (hI : ∀ file st, Keeps I (cleanFile u w file st))
include hI

/-- Each text is made on a disk of which what holds at first and outlasts the cleaning of files still holds. -/
theorem forall_outputs (es : List (Text × Statuses)) (hd : I d) : ∀ o ∈ outputs u w es d, I o.disk := by
  induction es generalizing d with
  | nil => simp [outputs]
  | cons e es ih =>
    have hnext := hI e.1 e.2 d hd
    cases hc : cleanFile u w e.1 e.2 d with
    | mk r d₁ =>
      rw [hc] at hnext
      cases r with
      | ok c =>
        obtain ⟨path, -, hout⟩ := outputs_cons_of_ok es hc
        rw [hout]
        exact List.forall_mem_cons.2 ⟨hd, ih hnext⟩
      | error x =>
        rw [outputs_cons_of_error es hc]
        exact ih hnext

theorem failures_caused {P : Text × Statuses → Prop} (hes : ∀ e ∈ es, P e) (hd : I d) : ∀ f ∈ failures u w es d,
    ∃ st d₁, P (f.1, st) ∧ I d₁ ∧ (cleanFile u w f.1 st d₁).1 = .error f.2 := by
  induction es generalizing d with
  | nil => simp [failures]
  | cons e es ih =>
    obtain ⟨he, hes⟩ := List.forall_mem_cons.1 hes
    have hnext := hI e.1 e.2 d hd
    rw [failures]
    split
    · rename_i hc
      rw [hc] at hnext
      exact ih hes hnext
    · rename_i x d₁ hx
      rw [hx] at hnext
      exact List.forall_mem_cons.2 ⟨⟨e.2, d, he, hd, congrArg Prod.fst hx⟩, ih hes hnext⟩

end Turns

/-- What holds after the backup and withstands the writes of a run holds after the run, however it ends. -/
theorem Withstands.run_of_backUp {I : Disk → Prop} {moment : Text} {l : Ledger} (hi : Withstands u w I)
    (h : I (backUp u moment l d).2) : I (Generation.run u w moment l d).2 :=
  Keeps.bind_of h fun _ d₁ _ h₁ => Keeps.bind_of (hi.cleanFiles _ d₁ h₁) fun _ d₂ _ h₂ =>
    Keeps.bind_of (hi.writeBundle _ d₂ h₂) fun _ _ _ h₃ => h₃

theorem cleanFile_error_cases {x : FileError} (h : cleanFile u w file st d = (.error x, d')) :
    prepare u w d file st = .error x ∧ d' = d ∨ ∃ c path e, prepare u w d file st = .ok (c, path) ∧
      Disk.replaceFile path c.css (w.unwritable (.cleaned file)) d = (.error (.errno e), d') ∧ x = .notWritten e := by
  unfold cleanFile at h
  rcases Action.bind_eq_error h with hask | ⟨p, d₁, hask, h₁⟩
  · obtain ⟨hp, rfl⟩ := Prod.mk.inj hask
    exact .inl ⟨hp, rfl⟩
  · obtain ⟨hp, rfl⟩ := Action.ask_eq_ok hask
    rcases Action.bind_eq_error h₁ with hm | ⟨_, d₂, -, h₂⟩
    · obtain ⟨e, hr, rfl⟩ := Action.mapError_eq_error hm
      cases e with
      | errno e => exact .inr ⟨p.1, p.2, e, hp, hr, rfl⟩
      | unspellable =>
        have hn := (Disk.replaceFile_eq_unspellable_iff.1 (congrArg Prod.fst hr)).2
        have hs := isSome_encode?_of_prepare hp
        simp [hn] at hs
    · cases (Prod.mk.inj h₂).1

theorem ne_inline_of_prepare (hi : file ≠ SourceKey.inline) :
    prepare u w d file st ≠ .error (.unavailable .inline) := by
  intro h
  unfold prepare at h
  split at h
  · cases h
  · split at h
    · cases h
    · rename_i x hx
      obtain rfl := FileError.unavailable.inj (Except.error.inj h)
      exact Site.read_ne_inline hi hx
    · split at h
      · cases h
      · cases h
      · split at h
        · cases h
        · cases h

/-- The line that a file costs names the file. -/
theorem infix_line_of_cleanFile {x : FileError} (hi : file ≠ SourceKey.inline)
    (h : (cleanFile u w file st d).1 = .error x) (hm : ∀ y, x ≠ .fatal y) : file <:+: x.line file := by
  rcases cleanFile_error_cases (Prod.ext h rfl) with ⟨hp, -⟩ | ⟨c, path, e, -, -, rfl⟩
  · cases x with
    | fatal y => exact absurd rfl (hm y)
    | illFormed e => exact ⟨"CSS parse error in ", ": " ++ e.message, by simp [FileError.line]⟩
    | notWritten e => exact (List.suffix_append _ file).isInfix
    | unavailable v =>
      cases v with
      | inline => exact absurd hp (ne_inline_of_prepare hi)
      | outside | missing | tooLarge | unreadable => exact (List.suffix_append _ file).isInfix
  · exact (List.suffix_append _ file).isInfix

theorem total_eq_sum (f : Cleaned → Nat) (cs : List Cleaned) : Cleaned.total f cs = (cs.map f).sum := by
  rw [Cleaned.total, List.sum_eq_foldr, List.foldr_map]

theorem writeBundle_cases {cs : List Cleaned} {css : Option Text} (h : writeBundle u w cs d = (.ok css, d')) :
    cs = [] ∧ css = none ∧ d' = d ∨ cs ≠ [] ∧ ∃ text, bundle cs = .ok text ∧ css = some text ∧
      Disk.replaceFile u.bundlePath text (w.unwritable .bundle) d = (.ok (), d') := by
  by_cases hc : cs = []
  · subst hc
    obtain ⟨hcss, rfl⟩ := Prod.mk.inj h
    exact .inl ⟨rfl, (Except.ok.inj hcss).symm, rfl⟩
  · right
    rw [writeBundle, if_neg (by simpa using hc)] at h
    cases hb : bundle cs with
    | error t =>
      rw [hb] at h
      cases (Prod.mk.inj h).1
    | ok text =>
      rw [hb] at h
      obtain ⟨_, d₁, hr, h₁⟩ := Action.bind_eq_ok h
      obtain ⟨hcss, rfl⟩ := Prod.mk.inj h₁
      exact ⟨hc, text, rfl, (Except.ok.inj hcss).symm, Action.mapError_eq_ok hr⟩

/-- The steps of a run that gives a result. -/
theorem run_eq_ok {moment : Text} {l : Ledger} {r : Result} (h : run u w moment l d = (.ok r, d')) :
    ∃ failed d₀ o d₁ css, backUp u moment l d = (.ok failed, d₀) ∧
      cleanFiles u w (filesOf l) d₀ = (.ok o, d₁) ∧ writeBundle u w o.cleaned d₁ = (.ok css, d') ∧
      r = ⟨o.cleaned.map Cleaned.file, failed ++ o.errors, .of o.cleaned css⟩ := by
  obtain ⟨failed, d₀, hb, h₁⟩ := Action.bind_eq_ok h
  obtain ⟨o, d₁, hc, h₂⟩ := Action.bind_eq_ok h₁
  obtain ⟨css, d₂, hw, h₃⟩ := Action.bind_eq_ok h₂
  obtain ⟨hr, rfl⟩ := Prod.mk.inj h₃
  exact ⟨failed, d₀, o, d₁, css, hb, hc, hw, (Except.ok.inj hr).symm⟩

theorem backUp_of_none {moment : Text} {l : Ledger} (hb : u.backup = none) : backUp u moment l d = (.ok [], d) := by
  rw [backUp, hb]
  rfl

theorem keys_filesOf (l : Ledger) : (filesOf l).map Prod.fst = l.keys.filter (· ≠ SourceKey.inline) := by
  rw [filesOf, Table.keys, List.filter_map]
  rfl

/-- A result that accounts for each file of a ledger: `os` are the texts that were written, and `fs` says what was
wrong with each other file. -/
structure Result.Accounts (u : Setup) (w : Faults) (l : Ledger) (os : List Output) (fs : List (Text × FileError))
    (r : Result) : Prop where
  files : r.files = os.map (·.cleaned.file)
  sublist : r.files.Sublist (l.keys.filter (· ≠ SourceKey.inline))
  failed : fs.map Prod.fst = (l.keys.filter (· ≠ SourceKey.inline)).filter (· ∉ r.files)
  errors : r.errors = fs.map fun f => f.2.line f.1
  caused : ∀ f ∈ fs, ∃ st d, l.get? f.1 = some st ∧ (cleanFile u w f.1 st d).1 = .error f.2
  named : ∀ f ∈ fs, f.1 <:+: f.2.line f.1
  /-- Sizes are those of the bytes that were read and of the bytes of the cleaned text. -/
  measured : ∀ o ∈ os, ∃ st place bytes modified content, l.get? o.cleaned.file = some st ∧
    Site.locate u.site o.disk o.cleaned.file = .ok place ∧
    o.disk.open? (Disk.pathOf place) = .ok (bytes, modified) ∧ o.cleaned.sizeBefore = bytes.length ∧
    clean st (Utf8.decodeLossy (Utf8.dropMark bytes)) = .ok (o.cleaned.css, o.cleaned.removed) ∧
    Utf8.encode? o.cleaned.css = some content ∧ o.cleaned.size = content.length
  processedFiles : r.statistics.processedFiles = r.files.length
  generatedFiles : r.statistics.generatedFiles = if 0 < r.files.length then r.files.length + 1 else 0
  hasBundle : r.statistics.hasBundle = true ↔ 0 < r.files.length
  sizeBefore : r.statistics.sizeBefore = (os.map (·.cleaned.sizeBefore)).sum
  sizeAfter : r.statistics.sizeAfter = (os.map (·.cleaned.size)).sum
  removed : r.statistics.removed = (os.map (·.cleaned.removed)).sum
  bundleSize : os = [] ∧ r.statistics.bundleSize = 0 ∨ ∃ text content, bundle (os.map (·.cleaned)) = .ok text ∧
    Utf8.encode? text = some content ∧ r.statistics.bundleSize = content.length

theorem Result.Accounts.mem_failures {l : Ledger} {os : List Output} {fs : List (Text × FileError)} {r : Result} {file : Text}
    (h : r.Accounts u w l os fs) (hf : file ∈ l.keys) (hi : file ≠ SourceKey.inline) (hn : file ∉ r.files) :
    ∃ x, (file, x) ∈ fs := by
  have hk : file ∈ fs.map Prod.fst := by
    rw [h.failed, List.mem_filter, List.mem_filter]
    exact ⟨⟨hf, decide_eq_true hi⟩, decide_eq_true hn⟩
  obtain ⟨⟨_, x⟩, hx, rfl⟩ := List.mem_map.1 hk
  exact ⟨x, hx⟩

theorem measured_of_outputs {l : Ledger} (hes : ∀ e ∈ es, l.get? e.1 = some e.2) : ∀ o ∈ outputs u w es d,
    ∃ st place bytes modified content, l.get? o.cleaned.file = some st ∧
      Site.locate u.site o.disk o.cleaned.file = .ok place ∧
      o.disk.open? (Disk.pathOf place) = .ok (bytes, modified) ∧ o.cleaned.sizeBefore = bytes.length ∧
      clean st (Utf8.decodeLossy (Utf8.dropMark bytes)) = .ok (o.cleaned.css, o.cleaned.removed) ∧
      Utf8.encode? o.cleaned.css = some content ∧ o.cleaned.size = content.length := by
  intro o ho
  obtain ⟨st, css, hst, hread, hclean, -⟩ := outputs_arises hes o ho
  obtain ⟨place, bytes, modified, hl, hopen, -, -, hr⟩ := Site.read_eq_ok hread
  obtain ⟨rfl, hsize⟩ := Prod.mk.inj hr
  obtain ⟨content, hcontent⟩ := Option.isSome_iff_exists.1 (isSome_encode?_clean hclean)
  exact ⟨st, place, bytes, modified, content, hst, hl, hopen, hsize, hclean, hcontent,
    (Utf8.length_of_encode? hcontent).symm⟩

/-- After the lines about backups a result accounts for every file of the ledger. -/
theorem exists_accounts_of_run {moment : Text} {l : Ledger} {r : Result} (h : run u w moment l d = (.ok r, d')) :
    ∃ failed d₀ lines, backUp u moment l d = (.ok failed, d₀) ∧ r.errors = failed ++ lines ∧
      Result.Accounts u w l (outputs u w (filesOf l) d₀) (failures u w (filesOf l) d₀) { r with errors := lines } := by
  obtain ⟨failed, d₀, o, d₁, css, hbackup, hc, hw, rfl⟩ := run_eq_ok h
  obtain ⟨hcleaned, -⟩ := cleanFiles_eq_ok hc
  obtain ⟨herrors, hmild⟩ := errors_of_cleanFiles hc
  refine ⟨failed, d₀, o.errors, hbackup, rfl, ?_⟩
  have hes : ∀ e ∈ filesOf l, l.get? e.1 = some e.2 := fun e he => Table.get?_of_mem (List.mem_filter.1 he).1
  have hkeys := keys_filesOf l
  have hnodup : ((filesOf l).map Prod.fst).Nodup := hkeys ▸ l.nodup.filter _
  have hfiles : o.cleaned.map Cleaned.file = (outputs u w (filesOf l) d₀).map (·.cleaned.file) := by
    rw [hcleaned, List.map_map]
    rfl
  have hfailures := files_failures (u := u) (w := w) hnodup d₀
  have hcaused : ∀ f ∈ failures u w (filesOf l) d₀, ∃ st d₁, l.get? f.1 = some st ∧
      (cleanFile u w f.1 st d₁).1 = .error f.2 := by
    intro f hf
    obtain ⟨st, d₁, hst, -, hx⟩ := failures_caused (I := fun _ => True) (fun _ _ _ _ => trivial) hes trivial f hf
    exact ⟨st, d₁, hst, hx⟩
  have hline : ∀ f ∈ failures u w (filesOf l) d₀, f.1 <:+: f.2.line f.1 := by
    intro f hf
    obtain ⟨st, d₂, -, hx⟩ := hcaused f hf
    have hk : f.1 ∈ (filesOf l).map Prod.fst := (hfailures ▸ List.filter_sublist).subset (List.mem_map_of_mem hf)
    have hi := List.of_mem_filter (hkeys ▸ hk : f.1 ∈ l.keys.filter (· ≠ SourceKey.inline))
    exact infix_line_of_cleanFile (of_decide_eq_true hi) hx (hmild f hf)
  have hsum (f : Cleaned → Nat) : Cleaned.total f o.cleaned =
      ((outputs u w (filesOf l) d₀).map fun o => f o.cleaned).sum := by
    rw [total_eq_sum, hcleaned, List.map_map]
    rfl
  have hnil : o.cleaned = [] ↔ outputs u w (filesOf l) d₀ = [] := by rw [hcleaned, List.map_eq_nil_iff]
  refine ⟨hfiles, ?_, ?_, herrors, hcaused, hline, measured_of_outputs hes, ?_, ?_, ?_, hsum _, hsum _, hsum _, ?_⟩
  · exact hfiles ▸ hkeys ▸ files_outputs_sublist _ _
  · exact hfiles ▸ hkeys ▸ hfailures
  · exact (List.length_map _).symm
  all_goals rcases writeBundle_cases hw with ⟨hempty, rfl, -⟩ | ⟨hne, text, htext, rfl, hwrite⟩
  · simp [Statistics.of, hempty]
  · simp [Statistics.of, List.length_pos_iff.2 hne]
  · simp [Statistics.of, hempty]
  · simp [Statistics.of, List.length_pos_iff.2 hne]
  · exact .inl ⟨hnil.1 hempty, rfl⟩
  · obtain ⟨_, -, ⟨⟨x, hx⟩, -⟩ | ⟨-, _, content, -, -, hcontent, -⟩⟩ := Disk.replaceFile_cases hwrite
    · cases hx
    · exact .inr ⟨text, content, hcleaned ▸ htext, hcontent, (Utf8.length_of_encode? hcontent).symm⟩

/-- A run without backups that gives a result accounts for every file of the ledger. -/
theorem run_accounts {moment : Text} {l : Ledger} {r : Result} (hb : u.backup = none)
    (h : run u w moment l d = (.ok r, d')) :
    r.Accounts u w l (outputs u w (filesOf l) d) (failures u w (filesOf l) d) := by
  obtain ⟨failed, d₀, lines, hbackup, herrors, haccounts⟩ := exists_accounts_of_run h
  obtain ⟨hfailed, rfl⟩ := Prod.mk.inj ((backUp_of_none hb).symm.trans hbackup)
  obtain rfl := Except.ok.inj hfailed
  obtain rfl : r.errors = lines := herrors
  exact haccounts

theorem cleanFiles_cons_of_error {e : Text × Statuses} {x : FileError} {o : Outcome} {d₁ : Disk}
    (h : cleanFile u w e.1 e.2 d = (.error x, d₁)) (hm : ∀ y, x ≠ .fatal y)
    (hr : cleanFiles u w es d₁ = (.ok o, d')) :
    cleanFiles u w (e :: es) d = (.ok { o with errors := x.line e.1 :: o.errors }, d') := by
  rw [cleanFiles, Action.attempt_bind, h]
  cases x with
  | fatal y => exact absurd rfl (hm y)
  | unavailable _ | illFormed _ | notWritten _ => exact Action.bind_of_ok hr _

theorem cleanFile_of_unavailable {v : Site.Unavailable} (hw : w.late file = false)
    (h : Site.locate u.site d file = .error (.unavailable v)) :
    cleanFile u w file st d = (.error (.unavailable v), d) := by
  have hr : Site.read u.site w.locked d file = .error (.unavailable v) := by rw [Site.read, h]
  have hp : prepare u w d file st = .error (.unavailable v) := by
    rw [prepare, hw, hr]
    rfl
  have hask : Action.ask (fun d => prepare u w d file st) d = (.error (.unavailable v), d) := by rw [Action.ask, hp]
  exact Action.bind_of_error hask _

/-- A ledger of inline styles, of a sheet that is not there and of one that is. -/
def partlyMissing : Ledger :=
  Table.ofList [("inline", Table.empty), ("c.css", Table.empty), ("a.css", Table.ofList [(".y", .used)])]

/-- The sheet that is not there is missing on every disk without links on which it has not been put. -/
theorem locate_missing {w : List (Place × Entry)} (hu : Disk.Unlinked (innerDisk w))
    (hf : (innerDisk w).isFile (Disk.pathOf [("s" : Text), "c.css"]) = false) :
    Site.locate inner.site (innerDisk w) "c.css" = .error (.unavailable .missing) := by
  have hi : ("c.css" : Text) ≠ SourceKey.inline := by decide
  have hroot : (innerDisk w).resolve inner.site.root = .ok [("s" : Text)] := hu.resolve (by decide)
  have hplace : (innerDisk w).resolve (Path.join (Disk.pathOf [("s" : Text)]) "c.css") = .ok [("s" : Text), "c.css"] :=
    hu.resolve (by decide)
  have hb : Disk.isBelow [("s" : Text)] [("s" : Text), "c.css"] = true := by decide
  simp [Site.locate, if_neg hi, hroot, hplace, hb, hf]

theorem exists_run_partlyMissing : ∃ d', run inner Faults.none [] partlyMissing (innerDisk []) =
    (.ok ⟨["a.css"], ["File not found or unavailable: c.css"], ⟨1, 2, true, 4, 4, 4, 0⟩⟩, d') := by
  have hes : filesOf partlyMissing =
      [(("c.css" : Text), Table.empty), ("a.css", Table.ofList [((".y" : Text), Status.used)])] := rfl
  have hnil : cleanFiles inner Faults.none [] (innerDisk (written ".y\x7b\x7d")) =
      (.ok ⟨[], []⟩, innerDisk (written ".y\x7b\x7d")) := rfl
  have hsheet := cleanFiles_cons_of_ok (e := ("a.css", Table.ofList [(".y", .used)])) cleanFile_first hnil
  have hl : Site.locate inner.site (innerDisk []) "c.css" = .error (.unavailable .missing) :=
    locate_missing unlinked_inner (by cbv)
  have hmissing : cleanFile inner Faults.none "c.css" Table.empty (innerDisk []) = (.error (.unavailable .missing), _) :=
    cleanFile_of_unavailable rfl hl
  have hfiles := cleanFiles_cons_of_error (e := ("c.css", Table.empty)) hmissing (by simp) hsheet
  have hb : bundle [⟨"a.css", ".y\x7b\x7d", 4, 0⟩] = .ok (".y\x7b\x7d" : Text) := by cbv
  obtain ⟨d', hr⟩ : ∃ d', Disk.replaceFile inner.bundlePath ".y\x7b\x7d" false (innerDisk (written ".y\x7b\x7d")) =
      (.ok (), d') := ⟨_, Prod.ext (by cbv) rfl⟩
  rw [run, Action.bind_of_ok (backUp_of_none rfl), hes, Action.bind_of_ok hfiles,
    Action.bind_of_ok (writeBundle_of_ok (w := Faults.none) (List.cons_ne_nil _ _) hb hr)]
  exact ⟨d', rfl⟩

/-- The missing sheet costs a line and the other one is counted; of inline styles nothing is said. -/
theorem accounts_partlyMissing : ∃ r d', run inner Faults.none [] partlyMissing (innerDisk []) = (.ok r, d') ∧
    r.Accounts inner Faults.none partlyMissing (outputs inner Faults.none (filesOf partlyMissing) (innerDisk []))
      (failures inner Faults.none (filesOf partlyMissing) (innerDisk [])) ∧
    r.files = [("a.css" : Text)] ∧ r.errors = [("File not found or unavailable: c.css" : Text)] := by
  obtain ⟨d', h⟩ := exists_run_partlyMissing
  exact ⟨_, d', h, run_accounts rfl h, rfl, rfl⟩

end Generation
end StylePrune
