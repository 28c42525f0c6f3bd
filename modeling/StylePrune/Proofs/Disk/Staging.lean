import StylePrune.Proofs.Disk.Writing
import StylePrune.Proofs.Table

/-!
A write in its steps: the text goes to a file with a name of its own in the directory, and that file is moved over
what stands at the path, or removed if anything fails. As long as the name is new there, nothing of it is left, and
the steps together do what putting the file there at once does.
-/

set_option autoImplicit false

namespace StylePrune

theorem Table.erase_insert {κ α : Type} [DecidableEq κ] {t : Table κ α} {k : κ} (h : t.get? k = none) (v : α) :
    (t.insert k v).erase k = t := by
  have hk : k ∉ t.entries.map Prod.fst := by
    intro hm
    obtain ⟨e, he, rfl⟩ := List.mem_map.1 hm
    cases h.symm.trans (get?_of_mem he)
  have hkeep : t.entries.filter (fun e => decide (e.1 ≠ k)) = t.entries :=
    List.filter_eq_self.2 fun e he => decide_eq_true fun heq => hk (heq ▸ List.mem_map_of_mem he)
  obtain ⟨es, hn⟩ := t
  simp only [erase, filter, insert, put_of_not_mem hk, List.filter_append, hkeep]
  simp

namespace Disk

variable {d : Disk} {p q : Place} {temp path text : Text} {refuse : Bool} {content : Bytes} {modified : Int}

theorem erase_set (h : d.entry? p = none) (e : Entry) : (d.set p e).erase p = d := by
  have hp : p ≠ [] := by
    rintro rfl
    cases h
  rw [ entry?, if_neg hp] at h
  rw [erase, set, Table.erase_insert h]

/-- Moves the file at a place over what stands at a path, unless that is refused or a directory stands there. -/
def moveFile (source : Place) (path : Text) (refuse : Bool) : Action Errno Unit := fun d =>
  if refuse then (.error .refused, d)
  else match d.entry? source, d.target path with
  | none, _ => (.error .noEntry, d)
  | some _, .error e => (.error e, d)
  | some e, .ok p => match d.entry? p with
    | some .directory => (.error .isDirectory, d)
    | _ => (.ok (), (d.erase source).set p e)

/-- Makes a file of a text. It stays empty if the text cannot be spelled. -/
def makeFile (p : Place) (text : Text) : Action WriteError Unit := fun d =>
  match Utf8.encode? text with
  | none => (.error .unspellable, d.set p (.file [] 0))
  | some content => (.ok (), d.set p (.file content 0))

/-- Puts a file at a path by way of another one, named `temp`, in the directory. -/
def stageFile (temp path text : Text) (refuse : Bool) : Action WriteError Unit := do
  let directory := (Path.names (Path.normalize path)).dropLast
  (makeDirectories directory).mapError .errno
  fun d => match d.find (pathOf directory) with
    | .error e => (.error (.errno e), d)
    | .ok place => match makeFile (place ++ [temp]) text d with
      | (.error e, d) => (.error e, d.erase (place ++ [temp]))
      | (.ok _, d) => match moveFile (place ++ [temp]) path refuse d with
        | (.error e, d) => (.error (.errno e), d.erase (place ++ [temp]))
        | (.ok _, d) => (.ok (), d)

/-- Nothing in the directory of a path has the name, once the directories on the way are made. -/
def IsFree (d : Disk) (temp path : Text) : Prop :=
  let directory := (Path.names (Path.normalize path)).dropLast
  ∀ place, (makeDirectories directory d).2.find (pathOf directory) = .ok place →
    entry? (makeDirectories directory d).2 (place ++ [temp]) = none

theorem grows_set (h : d.entry? p = none) (hp : p ≠ []) (e : Entry) : Grows d (d.set p e) := by
  intro q f hq
  rw [entry?_set hp, if_neg fun heq => by simp [heq, h] at hq, hq]

/-- A way to a directory does not go through a new file. -/
theorem Leads.of_set {links : Nat} {a : Place} {ns : List Text} (hn : d.entry? p = none) (hp : p ≠ [])
    (h : Leads (d.set p (.file content modified)) links a ns q)
    (hq : entry? (d.set p (.file content modified)) q = some .directory) : Leads d links a ns q := by
  have hself : entry? (d.set p (.file content modified)) p = some (.file content modified) := by
    rw [entry?_set hp, if_pos rfl]
  have hother {r : Place} {e : Entry} (hr : entry? (d.set p (.file content modified)) r = some e)
      (he : e ≠ .file content modified) : d.entry? r = some e := by
    have hne : r ≠ p := by
      rintro rfl
      exact he (Option.some.inj (hr.symm.trans hself))
    rwa [entry?_set hp, if_neg hne] at hr
  induction h with
  | here links q => exact .here links q
  | stay hd hn' _ ih => exact .stay (hother hd nofun) hn' (ih hq)
  | up hd _ ih => exact .up (hother hd nofun) (ih hq)
  | link hd hn' hs he _ ih => exact .link (hother hd nofun) hn' hs (hother he nofun) (ih hq)
  | @down links a q n ns e hd hn' hs he hl h ih =>
    have hne : a ++ [n] ≠ p := by
      intro heq
      obtain rfl := h.eq_of_file (by rw [heq, hself])
      rw [heq, hself] at hq
      cases hq
    exact .down (hother hd nofun) hn' hs (by rwa [entry?_set hp, if_neg hne] at he) hl (ih hq)

theorem target_set_eq_ok_iff (hn : d.entry? p = none) (hp : p ≠ []) :
    (d.set p (.file content modified)).target path = .ok q ↔ d.target path = .ok q := by
  obtain ⟨init, n, hi⟩ := Text.exists_splitOn_concat '/' path
  constructor
  · intro h
    obtain ⟨dir, hdir, hd, hrest⟩ := (target_eq_ok_iff hi).1 h
    have hway := hdir.of_set hn hp hd
    have hne : dir ≠ p := by
      rintro rfl
      rw [entry?_set hp, if_pos rfl] at hd
      cases hd
    rw [entry?_set hp, if_neg hne] at hd
    exact (target_eq_ok_iff hi).2 ⟨dir, hway, hd, hrest⟩
  · exact (grows_set hn hp _).target

/-- A new file is not there any more once it is moved, and if it cannot be moved everything is as before. -/
theorem moveFile_set (hn : d.entry? p = none) (hp : p ≠ []) (path : Text) (refuse : Bool) (content : Bytes)
    (modified : Int) :
    (∃ q, refuse = false ∧ d.target path = .ok q ∧ d.entry? q ≠ some .directory ∧
        moveFile p path refuse (d.set p (.file content modified)) = (.ok (), d.set q (.file content modified))) ∨
      ((∀ q, refuse = false → d.target path = .ok q → d.entry? q = some .directory) ∧
        ∃ e, moveFile p path refuse (d.set p (.file content modified)) =
          (.error e, d.set p (.file content modified))) := by
  have hself : entry? (d.set p (.file content modified)) p = some (.file content modified) := by
    rw [entry?_set hp, if_pos rfl]
  cases refuse with
  | true => exact .inr ⟨nofun, .refused, rfl⟩
  | false =>
    cases ht : d.target path with
    | error e =>
      cases ht' : (d.set p (.file content modified)).target path with
      | error f => exact .inr ⟨nofun, f, by simp [moveFile, hself, ht']⟩
      | ok q =>
        rw [target_set_eq_ok_iff hn hp, ht] at ht'
        cases ht'
    | ok q =>
      have ht' : (d.set p (.file content modified)).target path = .ok q := (target_set_eq_ok_iff hn hp).2 ht
      have hdir : entry? (d.set p (.file content modified)) q = some .directory ↔ d.entry? q = some .directory := by
        by_cases hq : q = p
        · subst hq
          simp [hself, hn]
        · rw [entry?_set hp, if_neg hq]
      by_cases hd : d.entry? q = some .directory
      · exact .inr ⟨fun r _ hr => Except.ok.inj hr ▸ hd, .isDirectory, by simp [moveFile, hself, ht', hdir.2 hd]⟩
      · refine .inl ⟨q, rfl, rfl, hd, ?_⟩
        simp only [moveFile, hself, ht', Bool.false_eq_true, if_false]
        split
        · rename_i hd'
          exact absurd (hdir.1 hd') hd
        · rw [erase_set hn]

/-- How two results are the same but for the reason why the system refused. -/
def SameResult (r s : Except WriteError Unit) : Prop := r = s ∨ ∃ e f, r = .error (.errno e) ∧ s = .error (.errno f)

/-- A write by way of a new file ends as one that is made at once does, and leaves the same disk. -/
theorem stageFile_eq (h : d.IsFree temp path) (text : Text) (refuse : Bool) :
    (stageFile temp path text refuse d).2 = (replaceFile path text refuse d).2 ∧
      SameResult (stageFile temp path text refuse d).1 (replaceFile path text refuse d).1 := by
  unfold stageFile replaceFile
  unfold IsFree at h
  simp only at h ⊢
  generalize (Path.names (Path.normalize path)).dropLast = directory at h ⊢
  cases hm : makeDirectories directory d with
  | mk r d₁ =>
    rw [hm] at h
    cases r with
    | error e =>
      rw [Action.bind_of_error (Action.mapError_of_error hm _), Action.bind_of_error (Action.mapError_of_error hm _)]
      exact ⟨rfl, .inl rfl⟩
    | ok _ =>
      rw [Action.bind_of_ok (Action.mapError_of_ok hm _), Action.bind_of_ok (Action.mapError_of_ok hm _)]
      cases hf : d₁.find (pathOf directory) with
      | error e => exact ⟨rfl, .inl rfl⟩
      | ok place =>
        have hn := h place hf
        have hp : place ++ [temp] ≠ [] := by simp
        cases hc : Utf8.encode? text with
        | none =>
          simp only [makeFile, hc, erase_set hn]
          exact ⟨trivial, .inl rfl⟩
        | some content =>
          simp only [makeFile, hc]
          rcases moveFile_set hn hp path refuse content 0 with ⟨q, rfl, ht, hd, hmove⟩ | ⟨hno, e, hmove⟩
          · simp only [hmove, ht, Bool.false_eq_true, if_false]
            exact ⟨trivial, .inl rfl⟩
          · simp only [hmove, erase_set hn]
            cases refuse with
            | true => exact ⟨rfl, .inr ⟨e, _, rfl, rfl⟩⟩
            | false =>
              simp only [Bool.false_eq_true, if_false]
              cases ht : d₁.target path with
              | error f => exact ⟨rfl, .inr ⟨e, _, rfl, rfl⟩⟩
              | ok q =>
                simp only [hno q rfl ht]
                exact ⟨trivial, .inr ⟨e, _, rfl, rfl⟩⟩

end Disk
end StylePrune
