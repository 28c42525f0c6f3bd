import Mathlib.Data.List.Induction
import StylePrune.Proofs.Disk
import StylePrune.Proofs.Disk.Following

/-!
What writing leaves as it was. Directories are only added; a text that is put at a path changes one place,
and there it stays until another text is put at the same place.
-/

set_option autoImplicit false

namespace StylePrune.Disk

variable {d d' : Disk} {p q : Place} {path text : Text}

/-- Everything on a disk is on the other one too. -/
def Grows (d d' : Disk) : Prop := ∀ p e, d.entry? p = some e → d'.entry? p = some e

theorem Grows.refl (d : Disk) : Grows d d := fun _ _ h => h

theorem Grows.trans {d'' : Disk} (h : Grows d d') (h' : Grows d' d'') : Grows d d'' :=
  fun p e he => h' p e (h p e he)

theorem Grows.later (h : Grows d d') : Later d d' := fun p e he => .inl (h p e he)

/-- Everything stays, and nothing that comes is a link. -/
structure Enlarges (d d' : Disk) : Prop where
  grows : Grows d d'
  link : ∀ p t, d'.entry? p = some (.link t) → d.entry? p = some (.link t)

theorem Enlarges.inherits (h : Enlarges d d') : Inherits d d' := ⟨h.grows.later, h.link⟩

theorem Enlarges.trans {d'' : Disk} (h : Enlarges d d') (h' : Enlarges d' d'') : Enlarges d d'' :=
  ⟨h.grows.trans h'.grows, fun p t he => h.link p t (h'.link p t he)⟩

theorem Grows.leads (h : Grows d d') {links : Nat} {a : Place} {ns : List Text} (hp : Leads d links a ns p) :
    Leads d' links a ns p := h.later.leads (fun q _ => h q _) hp

theorem entry?_set (hp : p ≠ []) (d : Disk) (e : Entry) (q : Place) :
    entry? (d.set p e) q = if q = p then some e else d.entry? q := by
  by_cases hq : q = []
  · subst hq
    simp [ entry?, Ne.symm hp]
  · simp [ entry?, set, hq, Table.get?_insert]

theorem target_eq_ok (h : d.target path = .ok p) : ∃ dir, d.find (Path.split path).1 = .ok dir ∧
    d.entry? dir = some .directory ∧ isOwnName (Path.split path).2 = true ∧ p = dir ++ [(Path.split path).2] := by
  unfold target at h
  simp only at h
  split at h
  · cases h
  · rename_i dir hdir
    split at h
    · cases h
    · rename_i hd
      split at h
      · cases h
      · rename_i hn
        split at h
        · cases h
        · exact ⟨dir, hdir, not_not.1 hd, by simpa using hn, (Except.ok.inj h).symm⟩

theorem ne_nil_of_target (h : d.target path = .ok p) : p ≠ [] := by
  obtain ⟨dir, -, -, -, rfl⟩ := target_eq_ok h
  simp

/-- A path puts something in the directory to which its names lead, the last one left out. -/
theorem target_eq_ok_iff {n : Text} {init : List Text} (hi : Text.splitOn '/' path = init ++ [n]) :
    d.target path = .ok p ↔ ∃ dir, Leads d maxLinks [] init dir ∧ d.entry? dir = some .directory ∧
      isOwnName n = true ∧ Text.utf8Size n ≤ maxName ∧ p = dir ++ [n] := by
  obtain ⟨ns, i, j, hpath, hfirst⟩ := Path.exists_split path
  obtain ⟨rfl, hn⟩ := List.append_inj' (hpath.symm.trans hi) rfl
  obtain rfl : (Path.split path).2 = n := by simpa using hn
  have hfind {dir : Place} (hd : d.entry? dir = some .directory) :
      d.find (Path.split path).1 = .ok dir ↔ Leads d maxLinks [] (ns ++ List.replicate i []) dir := by
    rw [find, follow_eq_ok_iff, hfirst, leads_append_replicate_nil hd, leads_append_replicate_nil hd]
  constructor
  · intro h
    obtain ⟨dir, hdir, hd, hown, rfl⟩ := target_eq_ok h
    refine ⟨dir, (hfind hd).1 hdir, hd, hown, Nat.not_lt.1 fun hsize => ?_, rfl⟩
    simp [target, hdir, hd, hown, hsize] at h
  · rintro ⟨dir, hdir, hd, hown, hsize, rfl⟩
    simp [target, (hfind hd).2 hdir, hd, hown, Nat.not_lt.2 hsize]

theorem entryAt?_eq_some_iff {e : Entry} :
    d.entryAt? path = some e ↔ ∃ p, d.find path = .ok p ∧ d.entry? p = some e := by
  unfold entryAt?
  cases d.find path <;> simp

theorem Grows.entryAt?_eq_some (h : Grows d d') {e : Entry} (he : d.entryAt? path = some e) :
    d'.entryAt? path = some e := by
  obtain ⟨p, hp, he⟩ := entryAt?_eq_some_iff.1 he
  rw [find, follow_eq_ok_iff] at hp
  exact entryAt?_eq_some_iff.2 ⟨p, follow_eq_ok_iff.2 (h.leads hp), h p e he⟩

theorem Later.target (hl : Later d d') (hk : ∀ p t, d.entry? p = some (.link t) → d'.entry? p = some (.link t))
    (h : d.target path = .ok p) : d'.target path = .ok p := by
  obtain ⟨init, n, hi⟩ := Text.exists_splitOn_concat '/' path
  obtain ⟨dir, hdir, hd, hrest⟩ := (target_eq_ok_iff hi).1 h
  exact (target_eq_ok_iff hi).2 ⟨dir, hl.leads hk hdir, hl.directory hd, hrest⟩

theorem find_of_target {e : Entry} (ht : d.target path = .ok p) (he : d.entry? p = some e)
    (hl : ∀ t, e ≠ .link t) : d.find path = .ok p := by
  obtain ⟨init, n, hi⟩ := Text.exists_splitOn_concat '/' path
  obtain ⟨dir, hdir, hd, hn, hs, rfl⟩ := (target_eq_ok_iff hi).1 ht
  rw [find, follow_eq_ok_iff, hi]
  exact hdir.append fun links => .down hd hn hs he hl (.here links _)

theorem Grows.target (h : Grows d d') (ht : d.target path = .ok p) : d'.target path = .ok p :=
  h.later.target (fun q _ => h q _) ht

/-- A file that comes upon what is no directory, nor a link to one, is on no way to a directory. -/
theorem Leads.set {links : Nat} {a dir : Place} {n : Text} {ns : List Text} (h : Leads d links a ns p)
    (hp : d.entry? p = some .directory) (hn : d.entry? (dir ++ [n]) ≠ some .directory)
    (hf : ∀ k r, k ≤ links → Leads d k dir [n] r → d.entry? r ≠ some .directory) (content : Bytes) (modified : Int) :
    Leads (d.set (dir ++ [n]) (.file content modified)) links a ns p := by
  have hself : entry? (d.set (dir ++ [n]) (.file content modified)) (dir ++ [n]) = some (.file content modified) := by
    rw [entry?_set (by simp), if_pos rfl]
  have hother {q : Place} (hq : q ≠ dir ++ [n]) :
      entry? (d.set (dir ++ [n]) (.file content modified)) q = d.entry? q := by
    rw [entry?_set (by simp), if_neg hq]
  have hdir {q : Place} (hq : d.entry? q = some .directory) :
      entry? (d.set (dir ++ [n]) (.file content modified)) q = some .directory := by
    rw [hother (fun h => hn (h ▸ hq)), hq]
  induction h with
  | here links p => exact .here links p
  | stay hd hn' _ ih => exact .stay (hdir hd) hn' (ih hp hf)
  | up hd _ ih => exact .up (hdir hd) (ih hp hf)
  | @link links b p m target ms hd hn' hs he h ih =>
    have hne : b ++ [m] ≠ dir ++ [n] := by
      intro heq
      obtain ⟨rfl, hm⟩ := List.append_inj' heq rfl
      obtain rfl : m = n := by simpa using hm
      obtain ⟨links', q, -, hq, hrest⟩ := h.exists_of_append
      exact hf _ q (Nat.le_refl _) (.link hd hn' hs he (by rwa [List.append_nil])) (hrest.isDirectory_start hp)
    exact .link (hdir hd) hn' hs ((hother hne).trans he) (ih hp fun k r hk => hf k r (Nat.le_succ_of_le hk))
  | @down links b p m ms e hd hn' hs he hl h ih =>
    by_cases hm : b ++ [m] = dir ++ [n]
    · exact .down (hdir hd) hn' hs ((congrArg _ hm).trans hself) (by simp) (ih hp hf)
    · exact .down (hdir hd) hn' hs ((hother hm).trans he) hl (ih hp hf)

/-- A file that comes upon a path's last name, where the path does not lead to a directory, is found there. -/
theorem find_set_of_target {q : Place} (ht : d.target path = .ok q) (hf : d.find path = .ok p)
    (hp : d.entry? p ≠ some .directory) (hq : d.entry? q ≠ some .directory) (content : Bytes) (modified : Int) :
    (d.set q (.file content modified)).target path = .ok q ∧
      (d.set q (.file content modified)).find path = .ok q := by
  obtain ⟨init, n, hi⟩ := Text.exists_splitOn_concat '/' path
  obtain ⟨dir, hdir, hd, hn, hs, rfl⟩ := (target_eq_ok_iff hi).1 ht
  rw [find, follow_eq_ok_iff, hi] at hf
  obtain ⟨links', dir', -, hdir', hlast⟩ := hf.exists_of_append
  obtain rfl := hdir.unique hdir'
  have hway := hdir.set hd hq (fun k r _ hr => hlast.unique hr ▸ hp) content modified
  have hd' : entry? (d.set (dir ++ [n]) (.file content modified)) dir = some .directory := by
    rw [entry?_set (by simp), if_neg (by simp), hd]
  have ht' : (d.set (dir ++ [n]) (.file content modified)).target path = .ok (dir ++ [n]) :=
    (target_eq_ok_iff hi).2 ⟨dir, hway, hd', hn, hs, rfl⟩
  exact ⟨ht', find_of_target ht' (by rw [entry?_set (by simp), if_pos rfl]) (by simp)⟩

theorem mkdir_grows (path : Text) (d : Disk) : Grows d (mkdir path d).2 := by
  unfold mkdir
  split
  · exact Grows.refl d
  · rename_i p hp
    split
    · exact Grows.refl d
    · rename_i hn
      intro q e he
      rw [entry?_set (ne_nil_of_target hp)]
      split
      · rename_i hq
        simp [← hq, he] at hn
      · exact he

/-- What lasts each time a directory is made on the way to a place lasts while all of them are. -/
theorem makeDirectories_keeps {I : Disk → Prop} (p : Place)
    (hI : ∀ q, q <+: p → Action.Keeps I (mkdir (pathOf q))) : Action.Keeps I (makeDirectories p) := by
  intro d hd
  induction p using List.reverseRecOn with
  | nil => simpa [makeDirectories] using hd
  | append_singleton p n ih =>
    have ih : I (makeDirectories p d).2 := ih fun q hq => hI q (hq.trans (List.prefix_append p [n]))
    rw [makeDirectories, dif_neg (by simp)]
    simp only [List.dropLast_concat]
    -- what was made on the way, before the last directory is made
    generalize hb : @ite _ (d.exists? (pathOf p) = true) _ _ _ = b
    have way : I b.2 := by
      subst hb
      split
      · exact hd
      · split <;> simp_all
    have last := hI _ (List.prefix_refl _) b.2 way
    split
    · exact way
    · split
      · split <;> simp_all
      · exact last

theorem makeDirectories_grows (p : Place) (d : Disk) : Grows d (makeDirectories p d).2 :=
  makeDirectories_keeps p (fun _ _ _ h => h.trans (mkdir_grows _ _)) d (Grows.refl d)

/-- The place at which a text is put by way of a path, once the directories on the way are made. -/
def putPlace (d : Disk) (path : Text) : Except Errno Place :=
  (makeDirectories (Path.names (Path.normalize path)).dropLast d).2.target path

/-- A write makes the directories on the way, and unless it fails puts the text at the place to which the path
leads then. -/
theorem replaceFile_cases {refuse : Bool} {r : Except WriteError Unit} (h : replaceFile path text refuse d = (r, d')) :
    ∃ d₁, (makeDirectories (Path.names (Path.normalize path)).dropLast d).2 = d₁ ∧
      ((∃ e, r = .error e) ∧ d' = d₁ ∨ r = .ok () ∧ ∃ p content, d₁.target path = .ok p ∧
        d₁.entry? p ≠ some .directory ∧ Utf8.encode? text = some content ∧ d' = d₁.set p (.file content 0)) := by
  refine ⟨_, rfl, ?_⟩
  cases r with
  | error e =>
    refine .inl ⟨⟨e, rfl⟩, ?_⟩
    rcases Action.bind_eq_error h with hm | ⟨_, d₁, hm, h⟩
    · obtain ⟨e, hm, -⟩ := Action.mapError_eq_error hm
      rw [hm]
    · rw [Action.mapError_eq_ok hm]
      split at h
      · exact (Prod.mk.inj h).2.symm
      · exact (Prod.mk.inj h).2.symm
      · split at h
        · exact (Prod.mk.inj h).2.symm
        · split at h
          · exact (Prod.mk.inj h).2.symm
          · split at h
            · exact (Prod.mk.inj h).2.symm
            · cases (Prod.mk.inj h).1
  | ok _ =>
    refine .inr ⟨rfl, ?_⟩
    obtain ⟨_, d₁, hm, h⟩ := Action.bind_eq_ok h
    rw [Action.mapError_eq_ok hm]
    split at h
    · cases h
    · cases h
    · rename_i content _ hc
      split at h
      · cases h
      · split at h
        · cases h
        · rename_i p hp
          split at h
          · cases h
          · rename_i hn
            exact ⟨p, content, hp, hn, hc, (Prod.mk.inj h).2.symm⟩

/-- A text that is put at a path replaces what was at one place; nothing else is lost. -/
theorem replaceFile_eq_ok {refuse : Bool} (h : replaceFile path text refuse d = (.ok (), d')) :
    ∃ d₁ p content, Grows d d₁ ∧ d.putPlace path = .ok p ∧ d₁.target path = .ok p ∧
      d₁.entry? p ≠ some .directory ∧ Utf8.encode? text = some content ∧ d' = d₁.set p (.file content 0) := by
  obtain ⟨d₁, hd₁, ⟨⟨e, he⟩, -⟩ | ⟨-, p, content, hp, hn, hc, rfl⟩⟩ := replaceFile_cases h
  · cases he
  · exact ⟨d₁, p, content, hd₁ ▸ makeDirectories_grows _ d, by rw [putPlace, hd₁, hp], hp, hn, hc, rfl⟩

/-- A write that fails may leave new directories behind, and nothing else. -/
theorem replaceFile_eq_error {refuse : Bool} {e : WriteError}
    (h : replaceFile path text refuse d = (.error e, d')) : Grows d d' := by
  obtain ⟨d₁, hd₁, ⟨-, rfl⟩ | ⟨hr, -⟩⟩ := replaceFile_cases h
  · exact hd₁ ▸ makeDirectories_grows _ d
  · cases hr

/-- The file at a path has the bytes of a text. -/
def Holds (d : Disk) (path text : Text) : Prop :=
  ∃ content modified, d.open? path = .ok (content, modified) ∧ Utf8.encode? text = some content

/-- A text that is put at a path of a disk. -/
structure Put where
  disk : Disk
  path : Text
  text : Text

def Put.place (q : Put) : Except Errno Place := q.disk.putPlace q.path

/-- The last of some texts that was put at a place. -/
def lastPut (qs : List Put) (p : Place) : Option Put :=
  (qs.filter fun q => match q.place with | .ok r => r = p | .error _ => false).getLast?

theorem lastPut_append (qs rs : List Put) (p : Place) : lastPut (qs ++ rs) p = (lastPut rs p).or (lastPut qs p) := by
  rw [lastPut, List.filter_append, List.getLast?_append]
  rfl

theorem lastPut_singleton {q : Put} (h : q.place = .ok p) (r : Place) :
    lastPut [q] r = if r = p then some q else none := by
  by_cases hr : p = r
  · simp [lastPut, h, hr]
  · simp [lastPut, h, hr, Ne.symm hr]

theorem isSome_lastPut {q : Put} {qs : List Put} (hq : q ∈ qs) (h : q.place = .ok p) : (lastPut qs p).isSome := by
  rw [lastPut, List.getLast?_isSome]
  exact List.ne_nil_of_mem (List.mem_filter.2 ⟨hq, by simp [h]⟩)

/-- How a disk changes when texts are put on it one after another. Every path led to its text's place when
the text came; a place has the text that came last, and files at other places stay. -/
structure Changes (d : Disk) (qs : List Put) (d' : Disk) : Prop where
  later : Later d d'
  placed : ∀ q ∈ qs, ∃ d₁ p, q.place = .ok p ∧ d₁.target q.path = .ok p ∧ Later d₁ d'
  files : ∀ p, match lastPut qs p with
    | some q => ∃ content, Utf8.encode? q.text = some content ∧ d'.entry? p = some (.file content 0)
    | none => ∀ content modified, d.entry? p = some (.file content modified) →
      d'.entry? p = some (.file content modified)

theorem Grows.changes (h : Grows d d') : Changes d [] d' :=
  ⟨h.later, by simp, fun p content modified hp => h p _ hp⟩

theorem Changes.trans {d'' : Disk} {qs rs : List Put} (h : Changes d qs d') (h' : Changes d' rs d'') :
    Changes d (qs ++ rs) d'' := by
  refine ⟨h.later.trans h'.later, fun q hq => ?_, fun p => ?_⟩
  · rcases List.mem_append.1 hq with hq | hq
    · obtain ⟨d₁, p, hp, ht, hl⟩ := h.placed q hq
      exact ⟨d₁, p, hp, ht, hl.trans h'.later⟩
    · exact h'.placed q hq
  · have hf := h.files p
    have hf' := h'.files p
    rw [lastPut_append]
    cases hr : lastPut rs p with
    | some r =>
      rw [hr] at hf'
      exact hf'
    | none =>
      rw [hr] at hf'
      rw [Option.none_or]
      cases hq : lastPut qs p with
      | some q =>
        rw [hq] at hf
        obtain ⟨content, hc, hp⟩ := hf
        exact ⟨content, hc, hf' content 0 hp⟩
      | none =>
        rw [hq] at hf
        exact fun content modified hp => hf' content modified (hf content modified hp)

theorem later_set {content : Bytes} {modified : Int} (hp : p ≠ []) (hn : d.entry? p ≠ some .directory) :
    Later d (d.set p (.file content modified)) := by
  intro q e he
  rw [entry?_set hp]
  by_cases hq : q = p
  · refine .inr ⟨?_, content, modified, by rw [if_pos hq]⟩
    rintro rfl
    exact hn (hq ▸ he)
  · exact .inl (by rw [if_neg hq, he])

theorem changes_of_replaceFile {refuse : Bool} (h : replaceFile path text refuse d = (.ok (), d')) :
    Changes d [⟨d, path, text⟩] d' := by
  obtain ⟨d₁, p, content, hg, hplace, ht, hn, hc, rfl⟩ := replaceFile_eq_ok h
  have hp := ne_nil_of_target ht
  have hl : Later d₁ (d₁.set p (.file content 0)) := later_set hp hn
  refine ⟨hg.later.trans hl, ?_, fun r => ?_⟩
  · rintro q hq
    obtain rfl := List.mem_singleton.1 hq
    exact ⟨d₁, p, hplace, ht, hl⟩
  · rw [lastPut_singleton (q := ⟨d, path, text⟩) hplace]
    by_cases hr : r = p
    · rw [if_pos hr]
      exact ⟨content, hc, by rw [entry?_set hp, if_pos hr]⟩
    · rw [if_neg hr]
      intro c m hf
      rw [entry?_set hp, if_neg hr]
      exact hg r _ hf

/-- Where a file stands at the end of a path that once led to a place, it stands at that place. -/
theorem eq_of_target_of_find {d₁ : Disk} {content : Bytes} {modified : Int} (hl : Later d₁ d')
    (ht : d₁.target path = .ok p) (hp : d'.entry? p = some (.file content modified))
    (hq : d'.find path = .ok q) : q = p := by
  obtain ⟨dir, hdir, -, hn, rfl⟩ := target_eq_ok ht
  obtain ⟨dir', hdir', hd', h⟩ := exists_of_find hq hn
  obtain rfl : dir' = dir := Leads.eq_of_later hl (leads_of_follow hdir) (leads_of_follow hdir') hd'
  refine h.resolve_left ?_
  rintro ⟨t, hlink⟩
  simp [hp] at hlink

/-- A text is found at its path, whatever was put after it, if and only if the path still leads to the
text's place and what came there last is the same. -/
theorem Changes.holds_iff {qs : List Put} (h : Changes d qs d') {q : Put} (hq : q ∈ qs) :
    d'.Holds q.path q.text ↔ ∃ p, q.place = .ok p ∧ d'.find q.path = .ok p ∧
      ∃ r, lastPut qs p = some r ∧ Utf8.encode? r.text = Utf8.encode? q.text := by
  obtain ⟨d₁, p, hplace, ht, hl⟩ := h.placed q hq
  obtain ⟨r, hr⟩ := Option.isSome_iff_exists.1 (isSome_lastPut hq hplace)
  have hfiles := h.files p
  rw [hr] at hfiles
  obtain ⟨content, hc, hp⟩ := hfiles
  constructor
  · rintro ⟨c, m, ho, ht'⟩
    unfold open? at ho
    split at ho
    · cases ho
    · rename_i p' hf
      obtain rfl := eq_of_target_of_find hl ht hp hf
      simp only [hp, Except.ok.injEq, Prod.mk.injEq] at ho
      refine ⟨p', hplace, hf, r, hr, ?_⟩
      rw [hc, ht', ho.1]
  · rintro ⟨p', hplace', hf, r', hr', ht'⟩
    obtain rfl := Except.ok.inj (hplace.symm.trans hplace')
    obtain rfl := Option.some.inj (hr.symm.trans hr')
    exact ⟨content, 0, by simp [open?, hf, hp], by rw [← ht', hc]⟩

end StylePrune.Disk
