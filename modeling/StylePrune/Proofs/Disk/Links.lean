import StylePrune.Backup
import StylePrune.Proofs.Disk.Evolving
import StylePrune.Proofs.Site

/-!
Resolving a path asks for links only. What neither makes a link nor takes one away leaves every path resolving
as before.
-/

set_option autoImplicit false

namespace StylePrune

namespace Disk

variable {d d' d'' : Disk} {p : Place} {path : Text}

/-- The same links stand at the same places. -/
def SameLinks (d d' : Disk) : Prop := ∀ p t, d'.entry? p = some (.link t) ↔ d.entry? p = some (.link t)

theorem SameLinks.refl (d : Disk) : SameLinks d d := fun _ _ => Iff.rfl

theorem SameLinks.symm (h : SameLinks d d') : SameLinks d' d := fun p t => (h p t).symm

theorem SameLinks.trans (h : SameLinks d d') (h' : SameLinks d' d'') : SameLinks d d'' :=
  fun p t => (h' p t).trans (h p t)

theorem Enlarges.sameLinks (h : Enlarges d d') : SameLinks d d' := fun p t => ⟨h.link p t, h.grows p _⟩

theorem Evolves.sameLinks {made written : Place → Prop} (h : Evolves made written d d')
    (hl : ∀ p t, written p → d.entry? p ≠ some (.link t)) : SameLinks d d' :=
  fun p t => ⟨h.inherits.link p t, fun he => h.entry?_of_some (fun hw => hl p t hw he) he⟩

/-- Links on the way are told apart from those that are being resolved, so no depth that is enough runs out. -/
theorem resolveFrom_congr (h : SameLinks d d') {depth depth' : Nat} {active : List Place} {done : Place}
    {rest : List Text} (hu : Underway d depth active) (hu' : Underway d' depth' active) :
    d'.resolveFrom depth' active done rest = d.resolveFrom depth active done rest := by
  fun_induction resolveFrom d depth active done rest generalizing depth' with
  | case1 => rw [resolveFrom]
  | case2 depth active done n rest hn ih => rw [resolveFrom, if_pos hn, ih hu hu']
  | case3 depth active done rest hn ih => rw [resolveFrom, if_neg hn, if_pos rfl, ih hu hu']
  | case4 depth active done n rest hn hup b hb => rw [resolveFrom, if_neg hn, if_neg hup, hb]
  | case5 depth active done n rest hn hup hb t ht hm =>
    rw [resolveFrom, if_neg hn, if_neg hup, hb]
    simp only [(h _ _).2 ht, if_pos hm]
  | case6 active done n rest hn hup hb t ht hm =>
    obtain ⟨k, hk, -⟩ := hu.cons ht hm
    cases hk
  | case7 active done n rest hn hup hb t ht hm depth e he ih =>
    simp only [dite_eq_ite] at he ih
    obtain ⟨k, rfl, hk⟩ := hu'.cons ((h _ _).2 ht) hm
    obtain ⟨_, hw, hd⟩ := hu.cons ht hm
    obtain rfl := Nat.succ.inj hw
    rw [resolveFrom, if_neg hn, if_neg hup, hb]
    simp only [(h _ _).2 ht, if_neg hm, ih hd hk, he]
  | case8 active done n rest hn hup hb t ht hm depth p hp ih ih' =>
    simp only [dite_eq_ite] at hp ih
    obtain ⟨k, rfl, hk⟩ := hu'.cons ((h _ _).2 ht) hm
    obtain ⟨_, hw, hd⟩ := hu.cons ht hm
    obtain rfl := Nat.succ.inj hw
    rw [resolveFrom, if_neg hn, if_neg hup, hb]
    simp only [(h _ _).2 ht, if_neg hm, ih hd hk, hp, ih' hu hu']
  | case9 active done n rest hn hup hb t ht hm depth p hp ih =>
    simp only [dite_eq_ite] at hp ih
    obtain ⟨k, rfl, hk⟩ := hu'.cons ((h _ _).2 ht) hm
    obtain ⟨_, hw, hd⟩ := hu.cons ht hm
    obtain rfl := Nat.succ.inj hw
    rw [resolveFrom, if_neg hn, if_neg hup, hb]
    simp only [(h _ _).2 ht, if_neg hm, ih hd hk, hp]
  | case10 depth active done n rest hn hup hb hl ih =>
    rw [resolveFrom, if_neg hn, if_neg hup, hb]
    simp only
    split
    · rename_i t ht
      exact absurd ((h _ _).1 ht) (hl t)
    · exact ih hu hu'

theorem resolve_congr (h : SameLinks d d') (path : Text) : d'.resolve path = d.resolve path := by
  have underway (d : Disk) : Underway d d.entries.entries.length [] := ⟨List.nodup_nil, by simp, Nat.le_add_right _ _⟩
  rw [resolve, resolve, resolveFrom_congr h (underway d) (underway d')]

theorem entry?_of_writeTarget {links : Nat} (h : d.writeTarget links path = .ok p) (t : Text) :
    d.entry? p ≠ some (.link t) := by
  fun_induction writeTarget d links path with
  | case1 => cases h
  | case2 => cases h
  | case3 => cases h
  | case4 path q hq t hlink links ih => exact ih h
  | case5 links path q hq hnd hnl =>
    obtain rfl := Except.ok.inj h
    exact hnl t

theorem writeFile_sameLinks (path : Text) (content : Bytes) (modified : Int) (d : Disk) :
    SameLinks d (writeFile path content modified d).2 := by
  have h : Evolves anywhere (fun p => d.writeTarget maxLinks path = .ok p) d (writeFile path content modified d).2 :=
    writeFile_evolves fun _ => id
  exact h.sameLinks fun p t hp => entry?_of_writeTarget hp t

theorem copyFile_sameLinks (source path : Text) (d : Disk) : SameLinks d (copyFile source path d).2 := by
  unfold copyFile
  split
  · exact SameLinks.refl d
  · exact writeFile_sameLinks _ _ _ d

end Disk

theorem Site.locate_inline {s : Site} {d : Disk} : locate s d SourceKey.inline = .error (.unavailable .inline) :=
  if_pos rfl

/-- Where the links are the same the same names cannot be looked for. -/
theorem Site.locate_eq_badName_congr {s : Site} {d d' : Disk} {file : Text} {b : Disk.BadName}
    (h : Disk.SameLinks d d') : locate s d' file = .error (.badName b) ↔ locate s d file = .error (.badName b) := by
  simp only [locate, Disk.resolve_congr h]
  split
  · rfl
  · split
    · rfl
    · split
      · rfl
      · refine iff_of_false ?_ ?_ <;> (split; simp; split <;> simp)

namespace Backup

open Disk (Action SameLinks)

theorem copy_sameLinks (s : Site) (directory file : Text) (d : Disk) : SameLinks d (copy s directory file d).2 := by
  unfold copy
  split
  · exact SameLinks.refl d
  · exact SameLinks.refl d
  · split
    · exact SameLinks.refl d
    · exact Disk.Action.Keeps.bind (I := SameLinks d) (fun _ h => h.trans (Disk.makeDirectories_enlarges _ _).sameLinks)
        (fun _ _ h => h.trans (Disk.copyFile_sameLinks _ _ _)) d (SameLinks.refl d)

theorem copy_eq_error_iff {s : Site} {directory file : Text} {d : Disk} {b : Disk.BadName} :
    (copy s directory file d).1 = .error b ↔ Site.locate s d file = .error (.badName b) := by
  unfold copy
  split
  · rename_i h
    simp [h]
  · rename_i h
    simp [h]
  · rename_i place h
    obtain ⟨-, root, hroot, -⟩ := Site.locate_eq_ok h
    rw [h, hroot]
    simp only [reduceCtorEq, iff_false]
    split <;> nofun

/-- Copying breaks off only at a name that no file can have. -/
theorem exists_copyAll_iff {s : Site} (directory : Text) {files : List Text} {d : Disk} :
    (∃ failed, (copyAll s directory files d).1 = .ok failed) ↔
      ∀ file ∈ files, ∀ b, Site.locate s d file ≠ .error (.badName b) := by
  induction files generalizing d with
  | nil => exact iff_of_true ⟨[], rfl⟩ (List.forall_mem_nil _)
  | cons file files ih =>
    obtain ⟨a, ha, hlinks, herror⟩ : ∃ a : Action Disk.BadName (List Text),
        (copyAll s directory (file :: files) = a >>= fun errors => copyAll s directory files >>= fun rest =>
          pure (errors ++ rest)) ∧ SameLinks d (a d).2 ∧
        ∀ b, (a d).1 = .error b ↔ Site.locate s d file = .error (.badName b) := by
      by_cases hi : file = SourceKey.inline
      · exact ⟨pure [], by rw [copyAll, if_pos hi], SameLinks.refl d,
          fun b => iff_of_false nofun (by simp [hi, Site.locate_inline])⟩
      · exact ⟨copy s directory file, by rw [copyAll, if_neg hi], copy_sameLinks s directory file d,
          fun b => copy_eq_error_iff⟩
    rw [List.forall_mem_cons, ha]
    cases hr : a d with
    | mk r d₁ =>
      rw [hr] at hlinks herror
      cases r with
      | error b =>
        rw [Action.bind_of_error hr]
        refine iff_of_false ?_ fun h => h.1 b ((herror b).1 rfl)
        rintro ⟨_, h⟩
        cases h
      | ok errors =>
        have hnamed (b : Disk.BadName) : Site.locate s d file ≠ .error (.badName b) :=
          fun hb => by cases (herror b).2 hb
        have hrest : (∀ file ∈ files, ∀ b, Site.locate s d file ≠ .error (.badName b)) ↔
            ∃ rest, (copyAll s directory files d₁).1 = .ok rest := by
          simp only [ih, ne_eq, Site.locate_eq_badName_congr hlinks]
        rw [Action.bind_of_ok hr, hrest]
        cases hc : copyAll s directory files d₁ with
        | mk r d₂ =>
          cases r with
          | ok rest => exact iff_of_true ⟨_, congrArg Prod.fst (Action.bind_of_ok hc _)⟩ ⟨hnamed, _, rfl⟩
          | error b =>
            rw [Action.bind_of_error hc]
            exact iff_of_false (fun ⟨_, h⟩ => by cases h) fun ⟨_, _, h⟩ => by cases h

end Backup
end StylePrune
