import StylePrune.Proofs.Disk.Resolving

/-!
What changes to a disk leave alone. Each operation makes directories where nothing stood and puts files where
no directory stood, and where it may do either is said of it; whatever is elsewhere stays, and so do all
directories.
-/

set_option autoImplicit false

namespace StylePrune.Disk

variable {d d' d'' : Disk} {made written : Place → Prop} {p : Place} {path text : Text}

/-- Entries stay, but for directories that come within `made` and files that come within `written`. -/
def Evolves (made written : Place → Prop) (d d' : Disk) : Prop := ∀ p, d'.entry? p = d.entry? p ∨
  made p ∧ d.entry? p = none ∧ d'.entry? p = some .directory ∨
  written p ∧ d.entry? p ≠ some .directory ∧ ∃ content modified, d'.entry? p = some (.file content modified)

/-- No bound on where something may come. -/
def anywhere (_ : Place) : Prop := True

namespace Evolves

theorem refl (made written : Place → Prop) (d : Disk) : Evolves made written d d := fun _ => .inl rfl

theorem mono {made' written' : Place → Prop} (h : Evolves made written d d') (hm : ∀ p, made p → made' p)
    (hw : ∀ p, written p → written' p) : Evolves made' written' d d' := fun p =>
  (h p).imp_right (Or.imp (fun hc => ⟨hm p hc.1, hc.2⟩) fun hc => ⟨hw p hc.1, hc.2⟩)

/-- An entry stays where no file is put. -/
theorem entry?_of_some (h : Evolves made written d d') {e : Entry} (hw : ¬ written p) (he : d.entry? p = some e) :
    d'.entry? p = some e := by
  rcases h p with hp | ⟨-, hn, -⟩ | ⟨hp, -⟩
  · rw [hp, he]
  · simp [he] at hn
  · exact absurd hp hw

theorem entry?_eq (h : Evolves made written d d') (hm : ¬ made p) (hw : ¬ written p) :
    d'.entry? p = d.entry? p := by
  rcases h p with hp | ⟨hp, -⟩ | ⟨hp, -⟩
  · exact hp
  · exact absurd hp hm
  · exact absurd hp hw

theorem inherits (h : Evolves made written d d') : Inherits d d' := by
  refine ⟨fun p e he => ?_, fun p t he => ?_⟩
  · rcases h p with hp | ⟨-, hn, -⟩ | ⟨-, hn, hf⟩
    · exact .inl (hp.trans he)
    · simp [he] at hn
    · exact .inr ⟨fun hd => hn (hd ▸ he), hf⟩
  · rcases h p with hp | ⟨-, -, hd⟩ | ⟨-, -, _, _, hf⟩
    · rw [← hp, he]
    · simp [hd] at he
    · simp [hf] at he

theorem enlarges (h : Evolves made (fun _ => False) d d') : Enlarges d d' :=
  ⟨fun _ _ he => h.entry?_of_some id he, h.inherits.link⟩

/-- A path still leads where it led, if no file came upon a link. -/
theorem find_eq_ok (h : Evolves made written d d') (hl : ∀ p t, written p → d.entry? p ≠ some (.link t))
    (hp : d.find path = .ok p) : d'.find path = .ok p := by
  rw [find, follow_eq_ok_iff] at hp ⊢
  exact h.inherits.later.leads (fun q t he => h.entry?_of_some (fun hw => hl q t hw he) he) hp

theorem trans (h : Evolves made written d d') (h' : Evolves made written d' d'') : Evolves made written d d'' := by
  intro p
  rcases h' p with hp' | ⟨hm, hn, hd⟩ | ⟨hw, hn, hf⟩
  · rw [hp']
    exact h p
  · rcases h p with hp | ⟨-, -, hp⟩ | ⟨-, -, _, _, hp⟩
    · exact .inr (.inl ⟨hm, hp ▸ hn, hd⟩)
    · simp [hp] at hn
    · simp [hp] at hn
  · exact .inr (.inr ⟨hw, fun hd => hn (h.inherits.later.directory hd), hf⟩)

theorem set {e : Entry} (hp : p ≠ []) (hcase : made p ∧ d.entry? p = none ∧ e = .directory ∨
      written p ∧ d.entry? p ≠ some .directory ∧ ∃ content modified, e = .file content modified) :
    Evolves made written d (d.set p e) := by
  intro q
  rw [entry?_set hp]
  by_cases hq : q = p
  · rw [if_pos hq, hq]
    rcases hcase with ⟨hm, hn, rfl⟩ | ⟨hw, hn, content, modified, rfl⟩
    · exact .inr (.inl ⟨hm, hn, rfl⟩)
    · exact .inr (.inr ⟨hw, hn, content, modified, rfl⟩)
  · exact .inl (if_neg hq)

end Evolves

theorem mkdir_evolves (hm : ∀ p, d.target path = .ok p → d.entry? p = none → made p) :
    Evolves made written d (mkdir path d).2 := by
  unfold mkdir
  split
  · exact Evolves.refl _ _ d
  · rename_i p hp
    split
    · exact Evolves.refl _ _ d
    · rename_i hn
      have hn : d.entry? p = none := by simpa using hn
      exact Evolves.set (ne_nil_of_target hp) (.inl ⟨hm p hp hn, hn, rfl⟩)

/-- Directories are made only at places to which the way down to the last of them leads. -/
theorem makeDirectories_evolves (p : Place) (d : Disk)
    (hm : ∀ d' q r, Enlarges d d' → q <+: p → d'.target (pathOf q) = .ok r → d'.entry? r = none → made r) :
    Evolves made (fun _ => False) d (makeDirectories p d).2 :=
  makeDirectories_keeps p (fun q hq d' h => h.trans (mkdir_evolves fun r => hm d' q r h.enlarges hq)) d
    (Evolves.refl _ _ d)

theorem makeDirectories_enlarges (p : Place) (d : Disk) : Enlarges d (makeDirectories p d).2 :=
  have h : Evolves anywhere (fun _ => False) d (makeDirectories p d).2 :=
    makeDirectories_evolves p d fun _ _ _ _ _ _ _ => trivial
  h.enlarges

/-- Replacing a file puts one at the place where the path leads once its directories are made. -/
theorem replaceFile_evolves {refuse : Bool} {r : Except WriteError Unit}
    (hm : Evolves made (fun _ => False) d (makeDirectories (Path.names (Path.normalize path)).dropLast d).2)
    (hw : ∀ d₁ p, Enlarges d d₁ → d₁.target path = .ok p → written p)
    (h : replaceFile path text refuse d = (r, d')) : Evolves made written d d' := by
  obtain ⟨d₁, rfl, ⟨-, rfl⟩ | ⟨-, p, content, hp, hn, -, rfl⟩⟩ := replaceFile_cases h
  · exact hm.mono (fun _ => id) fun _ => False.elim
  · exact (hm.mono (fun _ => id) fun _ => False.elim).trans
      (Evolves.set (ne_nil_of_target hp) (.inr ⟨hw _ p hm.enlarges hp, hn, content, 0, rfl⟩))

theorem replaceFile_inherits (path text : Text) (refuse : Bool) (d : Disk) :
    Inherits d (replaceFile path text refuse d).2 :=
  have h : Evolves anywhere anywhere d (replaceFile path text refuse d).2 := replaceFile_evolves
    (makeDirectories_evolves _ d fun _ _ _ _ _ _ _ => trivial) (fun _ _ _ _ => trivial) rfl
  h.inherits

theorem writeTarget_eq_ok {links : Nat} (h : d.writeTarget links path = .ok p) :
    p ≠ [] ∧ d.entry? p ≠ some .directory ∧
      (d.target path = .ok p ∨ ∃ q t, d.target path = .ok q ∧ d.entry? q = some (.link t)) := by
  fun_induction writeTarget d links path with
  | case1 => cases h
  | case2 => cases h
  | case3 => cases h
  | case4 path q hq t hlink links ih => exact ⟨(ih h).1, (ih h).2.1, .inr ⟨q, t, hq, hlink⟩⟩
  | case5 links path q hq hnd hnl =>
    obtain rfl := Except.ok.inj h
    exact ⟨ne_nil_of_target hq, hnd, .inl hq⟩

theorem target_of_writeTarget {links : Nat} (h : d.writeTarget links path = .ok p)
    (hl : ∀ q t, d.target path = .ok q → d.entry? q ≠ some (.link t)) : d.target path = .ok p :=
  (writeTarget_eq_ok h).2.2.resolve_right fun ⟨q, t, hq, he⟩ => hl q t hq he

/-- Writing in place puts a file where the path leads in the end. -/
theorem writeFile_evolves {content : Bytes} {modified : Int}
    (hw : ∀ p, d.writeTarget maxLinks path = .ok p → written p) :
    Evolves made written d (writeFile path content modified d).2 := by
  unfold writeFile
  split
  · exact Evolves.refl _ _ d
  · rename_i p hp
    obtain ⟨hne, hn, -⟩ := writeTarget_eq_ok hp
    exact Evolves.set hne (.inr ⟨hw p hp, hn, content, modified, rfl⟩)

/-- Touching a path puts an empty file where nothing is. -/
theorem touchFile_cases (path : Text) (d : Disk) : (touchFile path d).2 = d ∨
    ∃ p, d.writeTarget maxLinks path = .ok p ∧ d.entry? p = none ∧ (touchFile path d).2 = d.set p (.file [] 0) := by
  unfold touchFile
  split
  · exact .inl rfl
  · rename_i p hp
    by_cases hn : (d.entry? p).isSome
    · exact .inl (if_pos hn)
    · exact .inr ⟨p, hp, by simpa using hn, if_neg hn⟩

theorem touchFile_evolves (hw : ∀ p, d.writeTarget maxLinks path = .ok p → written p) :
    Evolves made written d (touchFile path d).2 := by
  rcases touchFile_cases path d with h | ⟨p, hp, hn, h⟩
  · rw [h]
    exact Evolves.refl _ _ d
  · rw [h]
    exact Evolves.set (writeTarget_eq_ok hp).1 (.inr ⟨hw p hp, by simp [hn], [], 0, rfl⟩)

theorem enlarges_set {content : Bytes} {modified : Int} (hp : p ≠ []) (hn : d.entry? p = none) :
    Enlarges d (d.set p (.file content modified)) := by
  refine ⟨fun q e he => ?_, fun q t he => ?_⟩
  · rw [entry?_set hp, if_neg, he]
    rintro rfl
    simp [hn] at he
  · rw [entry?_set hp] at he
    split at he
    · simp at he
    · exact he

theorem touchFile_enlarges (path : Text) (d : Disk) : Enlarges d (touchFile path d).2 := by
  rcases touchFile_cases path d with h | ⟨p, hp, hn, h⟩
  · rw [h]
    exact ⟨Grows.refl d, fun _ _ => id⟩
  · rw [h]
    exact enlarges_set (writeTarget_eq_ok hp).1 hn

end StylePrune.Disk
