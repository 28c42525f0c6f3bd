import Mathlib.Logic.Basic
import StylePrune.Disk
import StylePrune.Proofs.Path

/-!
Where a path leads, step by step: to a directory, and from there to its last name. On a later disk, from
which nothing is gone but links that gave way to files, a path that still leads to a directory leads to the
same one.
-/

set_option autoImplicit false

namespace StylePrune.Disk

/-- Names lead from one place to another, through at most `links` links. -/
inductive Leads (d : Disk) : Nat → Place → List Text → Place → Prop where
  | here (links : Nat) (p : Place) : Leads d links p [] p
  | stay {links : Nat} {a p : Place} {n : Text} {ns : List Text} (hd : d.entry? a = some .directory)
      (hn : n = [] ∨ n = ".") (h : Leads d links a ns p) : Leads d links a (n :: ns) p
  | up {links : Nat} {a p : Place} {ns : List Text} (hd : d.entry? a = some .directory)
      (h : Leads d links a.dropLast ns p) : Leads d links a (".." :: ns) p
  | link {links : Nat} {a p : Place} {n target : Text} {ns : List Text} (hd : d.entry? a = some .directory)
      (hn : isOwnName n = true) (hs : Text.utf8Size n ≤ maxName) (he : d.entry? (a ++ [n]) = some (.link target))
      (h : Leads d links (if Path.isAbsolute target then [] else a) (Text.splitOn '/' target ++ ns) p) :
      Leads d (links + 1) a (n :: ns) p
  | down {links : Nat} {a p : Place} {n : Text} {ns : List Text} {e : Entry}
      (hd : d.entry? a = some .directory) (hn : isOwnName n = true) (hs : Text.utf8Size n ≤ maxName)
      (he : d.entry? (a ++ [n]) = some e) (hl : ∀ target, e ≠ .link target)
      (h : Leads d links (a ++ [n]) ns p) : Leads d links a (n :: ns) p

variable {d d' : Disk} {links : Nat} {a p q : Place} {n : Text} {ns ms : List Text}

theorem isOwnName_iff : isOwnName n = true ↔ ¬(n = [] ∨ n = ".") ∧ n ≠ ".." := by
  simp [isOwnName, not_or, and_assoc]

theorem leads_of_follow (h : d.follow links a ns = .ok p) : Leads d links a ns p := by
  fun_induction follow d links a ns with
  | case1 links a => exact Except.ok.inj h ▸ .here links a
  | case2 => cases h
  | case3 links a n ns hd hn ih => exact .stay (not_not.1 hd) hn (ih h)
  | case4 links a ns hd hn ih => exact .up (not_not.1 hd) (ih h)
  | case5 => cases h
  | case6 => cases h
  | case7 => cases h
  | case8 a n ns hd hn hu hs target he links ih =>
    exact .link (not_not.1 hd) (isOwnName_iff.2 ⟨hn, hu⟩) (by omega) he (ih h)
  | case9 links a n ns hd hn hu hs e hl he ih =>
    exact .down (not_not.1 hd) (isOwnName_iff.2 ⟨hn, hu⟩) (by omega) he (fun t ht => hl t ht) (ih h)

theorem follow_of_leads (h : Leads d links a ns p) : d.follow links a ns = .ok p := by
  induction h with
  | here links p => rw [follow]
  | stay hd hn h ih => rw [follow, if_neg (not_not.2 hd), if_pos hn, ih]
  | up hd h ih => rw [follow, if_neg (not_not.2 hd), if_neg (by decide), if_pos rfl, ih]
  | link hd hn hs he h ih =>
    obtain ⟨hn, hu⟩ := isOwnName_iff.1 hn
    rw [follow, if_neg (not_not.2 hd), if_neg hn, if_neg hu, if_neg (by omega), he]
    exact ih
  | @down links a p n ns e hd hn hs he hl h ih =>
    obtain ⟨hn, hu⟩ := isOwnName_iff.1 hn
    rw [follow, if_neg (not_not.2 hd), if_neg hn, if_neg hu, if_neg (by omega), he]
    cases e with
    | link target => exact absurd rfl (hl target)
    | file content modified => exact ih
    | directory => exact ih

theorem follow_eq_ok_iff : d.follow links a ns = .ok p ↔ Leads d links a ns p :=
  ⟨leads_of_follow, follow_of_leads⟩

theorem Leads.mono (h : Leads d links a ns p) {more : Nat} (hm : links ≤ more) : Leads d more a ns p := by
  induction h generalizing more with
  | here links p => exact .here more p
  | stay hd hn _ ih => exact .stay hd hn (ih hm)
  | up hd _ ih => exact .up hd (ih hm)
  | link hd hn hs he _ ih =>
    obtain ⟨k, rfl⟩ := Nat.exists_eq_add_of_le' hm
    exact .link hd hn hs he (ih (Nat.le_add_left _ k))
  | down hd hn hs he hl _ ih => exact .down hd hn hs he hl (ih hm)

/-- A path leads to one place. -/
theorem Leads.unique {links' : Nat} (h : Leads d links a ns p) (h' : Leads d links' a ns q) : p = q := by
  have hp := follow_of_leads (h.mono (Nat.le_add_right links links'))
  have hq := follow_of_leads (h'.mono (Nat.le_add_left links' links))
  exact Except.ok.inj (hp.symm.trans hq)

theorem Leads.isDirectory_start (h : Leads d links a ns p) (hp : d.entry? p = some .directory) :
    d.entry? a = some .directory := by
  cases h with
  | here => exact hp
  | stay hd | up hd | link hd | down hd => exact hd

theorem Leads.append (h : Leads d links a ns q) (h' : ∀ links, Leads d links q ms p) :
    Leads d links a (ns ++ ms) p := by
  induction h with
  | here links q => exact h' links
  | stay hd hn _ ih => exact .stay hd hn (ih h')
  | up hd _ ih => exact .up hd (ih h')
  | link hd hn hs he _ ih => exact .link hd hn hs he (List.append_assoc _ _ ms ▸ ih h')
  | down hd hn hs he hl _ ih => exact .down hd hn hs he hl (ih h')

theorem Leads.append_add {more : Nat} (h : Leads d links a ns q) (h' : Leads d more q ms p) :
    Leads d (links + more) a (ns ++ ms) p := by
  induction h with
  | here links q => exact h'.mono (Nat.le_add_left more links)
  | stay hd hn _ ih => exact .stay hd hn (ih h')
  | up hd _ ih => exact .up hd (ih h')
  | @link links a q n target ns hd hn hs he _ ih =>
    rw [Nat.add_right_comm]
    exact .link hd hn hs he (List.append_assoc _ ns ms ▸ ih h')
  | down hd hn hs he hl _ ih => exact .down hd hn hs he hl (ih h')

theorem Leads.exists_of_append (h : Leads d links a (ns ++ ms) p) :
    ∃ links' q, links' ≤ links ∧ Leads d links a ns q ∧ Leads d links' q ms p := by
  generalize hns : ns ++ ms = l at h
  induction h generalizing ns with
  | here links p =>
    obtain ⟨rfl, rfl⟩ := List.append_eq_nil_iff.1 hns
    exact ⟨links, p, Nat.le_refl _, .here links p, .here links p⟩
  | @stay links a p n l hd hn h ih =>
    rcases List.append_eq_cons_iff.1 hns with ⟨rfl, rfl⟩ | ⟨ns, rfl, rfl⟩
    · exact ⟨links, a, Nat.le_refl _, .here links a, .stay hd hn h⟩
    · obtain ⟨links', q, hle, hq, hp⟩ := ih rfl
      exact ⟨links', q, hle, .stay hd hn hq, hp⟩
  | @up links a p l hd h ih =>
    rcases List.append_eq_cons_iff.1 hns with ⟨rfl, rfl⟩ | ⟨ns, rfl, rfl⟩
    · exact ⟨links, a, Nat.le_refl _, .here links a, .up hd h⟩
    · obtain ⟨links', q, hle, hq, hp⟩ := ih rfl
      exact ⟨links', q, hle, .up hd hq, hp⟩
  | @link links a p n target l hd hn hs he h ih =>
    rcases List.append_eq_cons_iff.1 hns with ⟨rfl, rfl⟩ | ⟨ns, rfl, rfl⟩
    · exact ⟨links + 1, a, Nat.le_refl _, .here _ a, .link hd hn hs he h⟩
    · have hcut : Text.splitOn '/' target ++ ns ++ ms = Text.splitOn '/' target ++ (ns ++ ms) := List.append_assoc ..
      obtain ⟨links', q, hle, hq, hp⟩ := ih hcut
      exact ⟨links', q, Nat.le_succ_of_le hle, .link hd hn hs he hq, hp⟩
  | @down links a p n l e hd hn hs he hl h ih =>
    rcases List.append_eq_cons_iff.1 hns with ⟨rfl, rfl⟩ | ⟨ns, rfl, rfl⟩
    · exact ⟨links, a, Nat.le_refl _, .here links a, .down hd hn hs he hl h⟩
    · obtain ⟨links', q, hle, hq, hp⟩ := ih rfl
      exact ⟨links', q, hle, .down hd hn hs he hl hq, hp⟩

/-- Names that stay where they are can be left out. -/
theorem Leads.filter (h : Leads d links a ns p) (hup : (".." : Text) ∉ ns) :
    ∃ more, Leads d more a (ns.filter isOwnName) p := by
  induction ns generalizing links a with
  | nil => exact ⟨links, h⟩
  | cons n ns ih =>
    have hup' : (".." : Text) ∉ ns := fun hm => hup (List.mem_cons_of_mem n hm)
    by_cases hn : isOwnName n = true
    · obtain ⟨links', q, -, hq, hp⟩ : ∃ links' q, links' ≤ links ∧ Leads d links a [n] q ∧ Leads d links' q ns p :=
        Leads.exists_of_append h
      obtain ⟨more, hp⟩ := ih hp hup'
      rw [List.filter_cons_of_pos hn]
      exact ⟨_, hq.append_add hp⟩
    · rw [List.filter_cons_of_neg hn]
      cases h with
      | stay _ _ h => exact ih h hup'
      | up => exact absurd List.mem_cons_self hup
      | link _ hn' => exact absurd hn' hn
      | down _ hn' => exact absurd hn' hn

theorem leads_replicate_nil (hd : d.entry? p = some .directory) (i links : Nat) :
    Leads d links p (List.replicate i []) p := by
  induction i with
  | zero => exact .here links p
  | succ i ih => exact .stay hd (.inl rfl) ih

theorem Leads.eq_of_replicate_nil {i : Nat} (h : Leads d links q (List.replicate i []) p) : p = q := by
  induction i with
  | zero => cases h; rfl
  | succ i ih =>
    cases h with
    | stay hd hn h => exact ih h
    | link hd hn => exact absurd hn (by decide)
    | down hd hn => exact absurd hn (by decide)

/-- Doubled slashes at the end of the way to a directory do not matter. -/
theorem leads_append_replicate_nil {i : Nat} (hd : d.entry? p = some .directory) :
    Leads d links a (ns ++ List.replicate i []) p ↔ Leads d links a ns p := by
  constructor
  · intro h
    obtain ⟨links', q, -, hq, hp⟩ := h.exists_of_append
    rwa [hp.eq_of_replicate_nil]
  · intro h
    exact h.append (leads_replicate_nil hd i)

/-- A disk on which nothing of another one is gone, except that files may have come in the place of links. -/
def Later (d d' : Disk) : Prop := ∀ p e, d.entry? p = some e →
  d'.entry? p = some e ∨ e ≠ .directory ∧ ∃ content modified, d'.entry? p = some (.file content modified)

theorem Later.refl (d : Disk) : Later d d := fun _ _ h => .inl h

theorem Later.trans {d'' : Disk} (h : Later d d') (h' : Later d' d'') : Later d d'' := by
  intro p e he
  rcases h p e he with he' | ⟨hn, content, modified, he'⟩
  · exact h' p e he'
  · refine .inr ⟨hn, ?_⟩
    rcases h' p _ he' with he'' | ⟨-, hf⟩
    · exact ⟨content, modified, he''⟩
    · exact hf

theorem Later.directory (h : Later d d') (hp : d.entry? p = some .directory) : d'.entry? p = some .directory :=
  (h p _ hp).resolve_right fun hn => hn.1 rfl

theorem Later.isFile (h : Later d d') {content : Bytes} {modified : Int}
    (hp : d.entry? p = some (.file content modified)) : ∃ c m, d'.entry? p = some (.file c m) := by
  rcases h p _ hp with hp' | ⟨-, hf⟩
  · exact ⟨content, modified, hp'⟩
  · exact hf

/-- As long as the links stay too, paths lead where they led. -/
theorem Later.leads (hl : Later d d') (hk : ∀ p t, d.entry? p = some (.link t) → d'.entry? p = some (.link t))
    (h : Leads d links a ns p) : Leads d' links a ns p := by
  induction h with
  | here links p => exact .here links p
  | stay hd hn _ ih => exact .stay (hl.directory hd) hn ih
  | up hd _ ih => exact .up (hl.directory hd) ih
  | link hd hn hs he _ ih => exact .link (hl.directory hd) hn hs (hk _ _ he) ih
  | down hd hn hs he hnl _ ih =>
    rcases hl _ _ he with he' | ⟨-, content, modified, he'⟩
    · exact .down (hl.directory hd) hn hs he' hnl ih
    · exact .down (hl.directory hd) hn hs he' (by simp) ih

/-- A later disk on which no link is new. -/
structure Inherits (d d' : Disk) : Prop where
  later : Later d d'
  link : ∀ p t, d'.entry? p = some (.link t) → d.entry? p = some (.link t)

theorem Inherits.refl (d : Disk) : Inherits d d := ⟨Later.refl d, fun _ _ h => h⟩

theorem Inherits.trans {d'' : Disk} (h : Inherits d d') (h' : Inherits d' d'') : Inherits d d'' :=
  ⟨h.later.trans h'.later, fun p t he => h.link p t (h'.link p t he)⟩

theorem Leads.eq_of_file {content : Bytes} {modified : Int} (hf : d.entry? a = some (.file content modified))
    (h : Leads d links a ns p) : p = a := by
  cases h with
  | here => rfl
  | stay hd => simp [hf] at hd
  | up hd => simp [hf] at hd
  | link hd => simp [hf] at hd
  | down hd => simp [hf] at hd

/-- Where a link gave way to a file no path leads on to a directory. -/
theorem Leads.eq_of_later (hl : Later d d') (h : Leads d links a ns p) (h' : Leads d' links a ns q)
    (hq : d'.entry? q = some .directory) : q = p := by
  induction h with
  | here links p => cases h'; rfl
  | @stay links a p n ns hd hn h ih =>
    cases h' with
    | stay _ _ h' => exact ih h'
    | up _ h' => exact absurd hn (by decide)
    | link _ hn' => exact absurd hn (isOwnName_iff.1 hn').1
    | down _ hn' => exact absurd hn (isOwnName_iff.1 hn').1
  | @up links a p ns hd h ih =>
    cases h' with
    | stay _ hn => exact absurd hn (by decide)
    | up _ h' => exact ih h'
    | link _ hn' => exact absurd rfl (isOwnName_iff.1 hn').2
    | down _ hn' => exact absurd rfl (isOwnName_iff.1 hn').2
  | @link links a p n target ns hd hn hs he h ih =>
    cases h' with
    | stay _ hn' => exact absurd hn' (isOwnName_iff.1 hn).1
    | up => exact absurd rfl (isOwnName_iff.1 hn).2
    | @link _ _ _ _ target' _ _ _ _ he' h' =>
      rcases hl _ _ he with hk | ⟨-, _, _, hf⟩
      · obtain rfl : target = target' := by simpa [hk] using he'
        exact ih h'
      · simp [hf] at he'
    | down _ _ _ he' hnl h' =>
      rcases hl _ _ he with hk | ⟨-, _, _, hf⟩
      · exact absurd (Option.some.inj (he'.symm.trans hk)) (hnl target)
      · rw [h'.eq_of_file hf, hf] at hq
        cases hq
  | @down links a p n ns e hd hn hs he hnl h ih =>
    cases h' with
    | stay _ hn' => exact absurd hn' (isOwnName_iff.1 hn).1
    | up => exact absurd rfl (isOwnName_iff.1 hn).2
    | link _ _ _ he' h' =>
      rcases hl _ _ he with hk | ⟨-, _, _, hf⟩
      · exact absurd (Option.some.inj (hk.symm.trans he')) (hnl _)
      · simp [hf] at he'
    | down _ _ _ _ _ h' => exact ih h'

theorem Leads.exists_of_concat (h : Leads d links a (ns ++ [n]) p) (hn : isOwnName n = true) :
    ∃ dir, Leads d links a ns dir ∧ d.entry? dir = some .directory ∧
      ((∃ t, d.entry? (dir ++ [n]) = some (.link t)) ∨ p = dir ++ [n]) := by
  obtain ⟨links', dir, -, hdir, hp⟩ := h.exists_of_append
  refine ⟨dir, hdir, ?_⟩
  cases hp with
  | stay _ hn' => exact absurd hn' (isOwnName_iff.1 hn).1
  | up => exact absurd rfl (isOwnName_iff.1 hn).2
  | link hd _ _ he => exact ⟨hd, .inl ⟨_, he⟩⟩
  | down hd _ _ _ _ h =>
    cases h
    exact ⟨hd, .inr rfl⟩

/-- A path's last name is looked up in the directory to which the rest leads. -/
theorem exists_of_find {path : Text} (h : d.find path = .ok p) (hn : isOwnName (Path.split path).2 = true) :
    ∃ dir, d.find (Path.split path).1 = .ok dir ∧ d.entry? dir = some .directory ∧
      ((∃ t, d.entry? (dir ++ [(Path.split path).2]) = some (.link t)) ∨ p = dir ++ [(Path.split path).2]) := by
  obtain ⟨ns, i, j, hpath, hdir⟩ := Path.exists_split path
  rw [find, follow_eq_ok_iff, hpath] at h
  obtain ⟨dir, hd, hdirectory, hp⟩ := h.exists_of_concat hn
  refine ⟨dir, ?_, hdirectory, hp⟩
  rw [find, follow_eq_ok_iff, hdir, leads_append_replicate_nil hdirectory]
  exact (leads_append_replicate_nil hdirectory).1 hd

end StylePrune.Disk
