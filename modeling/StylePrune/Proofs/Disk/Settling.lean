import StylePrune.Proofs.Disk.Reading

/-!
How far resolving a path takes the links out of it. Where no link leads back to itself none is left. Where one does,
the rest of the path is only rid of its dots, and links may be left in what comes of it.
-/

set_option autoImplicit false

namespace StylePrune.Disk

variable {d : Disk} {links depth : Nat} {active : List Place} {a p q : Place} {n : Text} {ns : List Text} {path : Text}

theorem linkless_nil (d : Disk) : Linkless d [] := by
  intro q t hq he
  rw [List.prefix_nil.1 hq] at he
  exact absurd he (by simp [ entry?])

theorem Linkless.of_prefix (h : Linkless d p) (hq : q <+: p) : Linkless d q := fun r t hr => h r t (hr.trans hq)

theorem Linkless.concat (h : Linkless d a) (hn : ∀ t, d.entry? (a ++ [n]) ≠ some (.link t)) : Linkless d (a ++ [n]) := by
  intro q t hq
  rcases List.prefix_concat_iff.1 hq with rfl | hq
  · exact hn t
  · exact h q t hq

theorem Linkless.start (h : Linkless d a) (target : Text) : Linkless d (if Path.isAbsolute target then [] else a) := by
  split
  · exact linkless_nil d
  · exact h

/-- Following a path leaves no link in the place to which it leads. -/
theorem Leads.linkless (h : Leads d links a ns p) (ha : Linkless d a) : Linkless d p := by
  induction h with
  | here => exact ha
  | stay _ _ _ ih => exact ih ha
  | up _ _ ih => exact ih (ha.of_prefix (List.dropLast_prefix _))
  | link _ _ _ _ _ ih => exact ih (ha.start _)
  | down _ _ _ he hl _ ih => exact ih (ha.concat fun t ht => hl t (Option.some.inj (he.symm.trans ht)))

theorem linkless_of_find (h : d.find path = .ok p) : Linkless d p :=
  (leads_of_follow h).linkless (linkless_nil d)

/-- A path that leads somewhere leads to what it resolves to. -/
theorem eq_of_find_of_resolve (h : d.find path = .ok p) (hr : d.resolve path = .ok q) : q = p :=
  eq_of_leads_of_not_link (Inherits.refl d) (leads_of_follow h)
    (fun t => linkless_of_find h p t (List.prefix_refl p)) hr

/-- On the way of the path no link leads back to itself. -/
def Settles (d : Disk) (path : Text) : Prop :=
  ∃ p, d.resolveFrom d.entries.entries.length [] [] (Text.splitOn '/' path) = .ok (p, true)

/-- What leads somewhere settles there. -/
theorem settles_of_find (h : d.find path = .ok p) (hr : d.resolve path = .ok q) : Settles d path := by
  obtain ⟨r, hr, -⟩ := resolve_eq_ok hr
  have hu : Underway d d.entries.entries.length [] := ⟨List.nodup_nil, by simp, Nat.le_add_right _ _⟩
  obtain rfl := resolveFrom_of_leads (Inherits.refl d) (leads_of_follow h)
    (fun t => linkless_of_find h p t (List.prefix_refl p)) hu (fun _ _ _ hm => absurd hm List.not_mem_nil) hr
  exact ⟨p, hr⟩

/-- Places that a path has come to when all links up to there are resolved. -/
structure Settled (d : Disk) (p : Place) : Prop where
  linkless : Linkless d p
  isOwnName : ∀ n ∈ p, isOwnName n = true

theorem settled_nil (d : Disk) : Settled d [] := ⟨linkless_nil d, fun _ hn => absurd hn List.not_mem_nil⟩

theorem Settled.start (h : Settled d a) (target : Text) : Settled d (if Path.isAbsolute target then [] else a) := by
  split
  · exact settled_nil d
  · exact h

/-- Resolving goes on from settled places to settled places as long as no link leads back to itself. -/
theorem Settled.resolveFrom (ha : Settled d a) (h : d.resolveFrom depth active a ns = .ok (p, true)) : Settled d p := by
  fun_induction Disk.resolveFrom d depth active a ns generalizing p with
  | case1 =>
    obtain ⟨rfl, -⟩ := Prod.mk.inj (Except.ok.inj h)
    exact ha
  | case2 _ _ _ _ _ _ ih => exact ih ha h
  | case3 _ _ _ _ _ ih =>
    exact ih ⟨ha.linkless.of_prefix (List.dropLast_prefix _), fun n hn => ha.isOwnName n (List.dropLast_subset _ hn)⟩ h
  | case4 => cases h
  | case5 | case6 => cases (Prod.mk.inj (Except.ok.inj h)).2
  | case7 => cases h
  | case8 _ _ _ _ _ _ _ target _ _ _ q hq ih1 ih2 => exact ih2 (ih1 (ha.start target) hq) h
  | case9 => cases (Prod.mk.inj (Except.ok.inj h)).2
  | case10 _ _ a n _ hn hup _ hl ih =>
    refine ih ⟨ha.linkless.concat hl, fun m hm => ?_⟩ h
    rcases List.mem_append.1 hm with hm | hm
    · exact ha.isOwnName m hm
    · exact List.mem_singleton.1 hm ▸ isOwnName_iff.2 ⟨hn, hup⟩

/-- A path that settles is resolved name by name to where it leads. -/
theorem Settles.resolveFrom_eq (hs : Settles d path) (h : d.resolve path = .ok p) :
    d.resolveFrom d.entries.entries.length [] [] (Text.splitOn '/' path) = .ok (p, true) := by
  obtain ⟨r, hr, rfl⟩ := resolve_eq_ok h
  obtain ⟨q, hq⟩ := hs
  obtain rfl := Except.ok.inj (hr.symm.trans hq)
  have hsettled := (settled_nil d).resolveFrom hq
  have hup : (".." : Text) ∉ q := fun hm => absurd (hsettled.isOwnName _ hm) (by decide)
  rw [Path.follow_of_not_mem hup, List.reverse_nil, List.nil_append, List.filter_eq_self.2 hsettled.isOwnName, hq]

/-- No link is left in what a path settles to. -/
theorem Settles.linkless (hs : Settles d path) (h : d.resolve path = .ok p) : Linkless d p :=
  ((settled_nil d).resolveFrom (hs.resolveFrom_eq h)).linkless

/-- The names of a place lead to the place itself exactly where no link is among them. -/
theorem find_pathOf_eq_iff (hp : Plain p) (h : d.find (pathOf p) = .ok q) : q = p ↔ Linkless d p := by
  constructor
  · rintro rfl
    exact linkless_of_find h
  · exact fun hl => find_pathOf hp hl h

end StylePrune.Disk
