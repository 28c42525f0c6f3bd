import StylePrune.Proofs.Disk.Evolving

/-!
Paths that go straight down from a directory that is there. What such a path can lead to is known from its names,
and so is where directories are made on the way to it.
-/

set_option autoImplicit false

namespace StylePrune

/-- More of a text without cuts makes its last piece longer. -/
theorem Text.splitOn_append_of_not_mem {c : CodePoint} {s t last : Text} {init : List Text}
    (h : splitOn c s = init ++ [last]) (ht : c ∉ t) : splitOn c (s ++ t) = init ++ [last ++ t] := by
  by_cases hc : c ∈ s
  · obtain ⟨l, s', hs, hl⟩ := List.eq_append_cons_of_mem (List.mem_reverse.2 hc)
    obtain rfl : s = s'.reverse ++ c :: l.reverse := by simpa using congrArg List.reverse hs
    have hl' : c ∉ l.reverse := by simpa using hl
    rw [splitOn_append, splitOn_of_not_mem hl'] at h
    obtain ⟨rfl, hlast⟩ := List.append_inj' h rfl
    obtain rfl : l.reverse = last := by simpa using hlast
    have hlt : c ∉ l.reverse ++ t := by simp [hl, ht]
    rw [List.append_assoc, List.cons_append, splitOn_append, splitOn_of_not_mem hlt]
  · rw [splitOn_of_not_mem hc] at h
    have hnil : [] ++ [s] = init ++ [last] := h
    obtain ⟨rfl, hlast⟩ := List.append_inj' hnil rfl
    obtain rfl : s = last := by simpa using hlast
    rw [splitOn_of_not_mem (by simp [hc, ht]), List.nil_append]

namespace Disk

variable {d d' : Disk} {links : Nat} {a p q dir : Place} {name path : Text} {ns : List Text}

/-- Without links and steps up, names lead down one by one. -/
theorem Leads.eq_append (h : Leads d links a ns p) (hup : (".." : Text) ∉ ns)
    (hl : ∀ q t, a <+: q → q <+: a ++ ns.filter isOwnName → d.entry? q ≠ some (.link t)) :
    p = a ++ ns.filter isOwnName := by
  induction h with
  | here p => simp
  | @stay _ _ _ n ns _ hn _ ih =>
    have hf : ¬ isOwnName n = true := fun h => (isOwnName_iff.1 h).1 hn
    rw [List.filter_cons_of_neg hf] at hl ⊢
    exact ih (fun hm => hup (List.mem_cons_of_mem n hm)) hl
  | up => exact absurd List.mem_cons_self hup
  | link _ hn _ he _ _ =>
    rw [List.filter_cons_of_pos hn] at hl
    exact absurd he (hl _ _ (List.prefix_append _ _) (by simp [List.prefix_append_right_inj]))
  | @down _ a _ n ns _ _ hn _ _ _ _ ih =>
    rw [List.filter_cons_of_pos hn] at hl ⊢
    have := ih (fun hm => hup (List.mem_cons_of_mem n hm)) fun q t hq hq' =>
      hl q t ((List.prefix_append a [n]).trans hq) (by simpa using hq')
    simpa using this

theorem Leads.eq_append_of_front {front : List Text} {links' : Nat}
    (h : Leads d links' [] ((front ++ ns).filter isOwnName) p) (ha : Leads d links [] front a)
    (hup : (".." : Text) ∉ front ++ ns)
    (hl : ∀ q t, a <+: q → q <+: a ++ ns.filter isOwnName → d.entry? q ≠ some (.link t)) :
    p = a ++ ns.filter isOwnName := by
  obtain ⟨more, ha⟩ := ha.filter fun hm => hup (List.mem_append_left _ hm)
  rw [List.filter_append] at h
  obtain ⟨links', a', -, ha', hns⟩ := h.exists_of_append
  obtain rfl := ha.unique ha'
  have hf : (ns.filter isOwnName).filter isOwnName = ns.filter isOwnName := by simp [List.filter_filter]
  rw [hns.eq_append (fun hm => hup (List.mem_append_right _ (List.mem_of_mem_filter hm))) (by rwa [hf]), hf]

/-- What a path goes through is there. -/
theorem Leads.isSome_entry? {ms : List Text} {b : Place} {links' : Nat} (h : Leads d links a (ms ++ name :: ns) p)
    (hn : isOwnName name = true) (hup : (".." : Text) ∉ ms) (hb : Leads d links' a (ms.filter isOwnName) b) :
    (d.entry? (b ++ [name])).isSome := by
  obtain ⟨_, b', -, hb', hrest⟩ := h.exists_of_append
  obtain ⟨more, hb'⟩ := hb'.filter hup
  obtain rfl := hb.unique hb'
  cases hrest with
  | stay _ hn' => exact absurd hn' (isOwnName_iff.1 hn).1
  | up => exact absurd rfl (isOwnName_iff.1 hn).2
  | link _ _ _ he => exact Option.isSome_iff_exists.2 ⟨_, he⟩
  | down _ _ _ he => exact Option.isSome_iff_exists.2 ⟨_, he⟩

theorem exists_append_of_concat_prefix_filter {α : Type} {f : α → Bool} {l as : List α} {a : α}
    (h : as ++ [a] <+: l.filter f) : ∃ m m', l = m ++ a :: m' ∧ m.filter f = as := by
  obtain ⟨rest, hrest⟩ := h
  rw [List.append_assoc, List.singleton_append] at hrest
  obtain ⟨m, m', rfl, hm, hm'⟩ := List.filter_eq_append_iff.1 hrest.symm
  obtain ⟨k, m', rfl, hk, -, -⟩ := List.filter_eq_cons_iff.1 hm'
  refine ⟨m ++ k, m', (List.append_assoc m k _).symm, ?_⟩
  rw [List.filter_append, hm, List.filter_eq_nil_iff.2 hk, List.append_nil]

/-- A path that goes straight down to `name` in `dir` from a directory that is there: whatever links are on the way to
that directory, there are none below it. -/
structure Straight (d : Disk) (path : Text) (dir : Place) (name : Text) : Prop where
  exists_front : ∃ front init a, Text.splitOn '/' path = front ++ init ++ [name] ∧ (".." : Text) ∉ front ++ init ∧
    Leads d maxLinks [] front a ∧ dir = a ++ init.filter isOwnName ∧
    ∀ q t, a <+: q → q <+: dir ++ [name] → d.entry? q ≠ some (.link t)
  isOwnName : isOwnName name = true

namespace Straight

variable (h : Straight d path dir name)
include h

theorem of_enlarges (he : Enlarges d d') : Straight d' path dir name := by
  obtain ⟨front, init, a, hi, hup, ha, hdir, hl⟩ := h.exists_front
  exact ⟨⟨front, init, a, hi, hup, he.grows.leads ha, hdir, fun q t hq hq' ht => hl q t hq hq' (he.link q t ht)⟩,
    h.isOwnName⟩

theorem ne_link (t : Text) : d.entry? (dir ++ [name]) ≠ some (.link t) := by
  obtain ⟨front, init, a, -, -, -, rfl, hl⟩ := h.exists_front
  exact hl _ t ((List.prefix_append a _).trans (List.prefix_append _ [name])) (List.prefix_refl _)

/-- The same path with something more at its end leads to a sibling. -/
theorem sibling {more : Text} (hm : CodePoint.char '/' ∉ more) (hn : Disk.isOwnName (name ++ more) = true)
    (hl : ∀ t, d.entry? (dir ++ [name ++ more]) ≠ some (.link t)) : Straight d (path ++ more) dir (name ++ more) := by
  obtain ⟨front, init, a, hi, hup, ha, hdir, hl'⟩ := h.exists_front
  refine ⟨⟨front, init, a, Text.splitOn_append_of_not_mem hi hm, hup, ha, hdir, fun q t hq hq' => ?_⟩, hn⟩
  rcases List.prefix_concat_iff.1 hq' with rfl | hq'
  · exact hl t
  · exact hl' q t hq (hq'.trans (List.prefix_append dir [name]))

/-- What a path puts something at can only be its own place. -/
theorem of_target (ht : d.target path = .ok p) : p = dir ++ [name] := by
  obtain ⟨front, init, a, hi, hup, ha, rfl, hl⟩ := h.exists_front
  obtain ⟨dir', hdir, -, -, -, rfl⟩ := (target_eq_ok_iff hi).1 ht
  obtain ⟨links', a', -, ha', hinit⟩ := hdir.exists_of_append
  obtain rfl := ha.unique ha'
  rw [hinit.eq_append (fun hm => hup (List.mem_append_right _ hm)) fun q t hq hq' =>
    hl q t hq (hq'.trans (List.prefix_append _ _))]

theorem of_find (hf : d.find path = .ok p) : p = dir ++ [name] := by
  obtain ⟨front, init, a, hi, hup, ha, rfl, hl⟩ := h.exists_front
  have hfilter : (init ++ [name]).filter Disk.isOwnName = init.filter Disk.isOwnName ++ [name] := by
    rw [List.filter_append, List.filter_cons_of_pos h.isOwnName, List.filter_nil]
  rw [find, follow_eq_ok_iff, hi, List.append_assoc] at hf
  obtain ⟨links', a', -, ha', hinit⟩ := hf.exists_of_append
  obtain rfl := ha.unique ha'
  have hup' : (".." : Text) ∉ init ++ [name] := by
    refine mt List.mem_append.1 (not_or.2 ⟨fun hm => hup (List.mem_append_right _ hm), fun hm => ?_⟩)
    exact absurd (List.mem_singleton.1 hm ▸ h.isOwnName) (by decide)
  have hp := hinit.eq_append hup'
  rw [hfilter, ← List.append_assoc] at hp
  exact hp hl

theorem entryAt?_eq_none (he : d.entry? (dir ++ [name]) = none) : d.entryAt? path = none := by
  rw [Option.eq_none_iff_forall_ne_some]
  intro e hs
  obtain ⟨p, hp, hs⟩ := entryAt?_eq_some_iff.1 hs
  rw [h.of_find hp, he] at hs
  cases hs

/-- A directory that is missing on the way is one below which there are no links. -/
theorem of_missing {r : Place} {n : Text} (hq : q ++ [n] <+: (Path.names (Path.normalize path)).dropLast)
    (ht : d.target (pathOf (q ++ [n])) = .ok r) (hn : d.entry? r = none) : r <+: dir := by
  obtain ⟨front, init, a, hi, hup, ha, rfl, hl⟩ := h.exists_front
  have hfilter : (Text.splitOn '/' path).filter Disk.isOwnName = (front ++ init).filter Disk.isOwnName ++ [name] := by
    rw [hi, List.filter_append, List.filter_cons_of_pos h.isOwnName, List.filter_nil]
  have hup' : (".." : Text) ∉ Text.splitOn '/' path := by
    rw [hi]
    refine mt List.mem_append.1 (not_or.2 ⟨hup, fun hm => ?_⟩)
    exact absurd (List.mem_singleton.1 hm ▸ h.isOwnName) (by decide)
  rw [Path.names_normalize hup' (by simp [hfilter]), hfilter, List.dropLast_concat] at hq
  have hplain : Plain (q ++ [n]) := fun m hm =>
    have hm := List.mem_filter.1 (hq.subset hm)
    ⟨hm.2, Text.not_mem_of_mem_splitOn (hi ▸ List.mem_append_left _ hm.1)⟩
  obtain ⟨ms, ms', hms, rfl⟩ := exists_append_of_concat_prefix_filter hq
  have hsplit : Text.splitOn '/' (pathOf (ms.filter Disk.isOwnName ++ [n])) = ([] :: ms.filter Disk.isOwnName) ++ [n] :=
    splitOn_pathOf (by simp) hplain
  obtain ⟨dir', hdir', -, hown, -, rfl⟩ := (target_eq_ok_iff hsplit).1 ht
  obtain ⟨more, hdir'⟩ := hdir'.filter
    (mt List.mem_cons.1 (not_or.2 ⟨by decide, fun hm => hplain.not_mem_up (List.mem_append_left _ hm)⟩))
  rw [List.filter_cons_of_neg (by decide), List.filter_filter] at hdir'
  simp only [Bool.and_self] at hdir'
  rw [hms] at hup
  have below (as : List Text) (hm : ms = front ++ as) (hi : init = as ++ n :: ms') :
      dir' ++ [n] <+: a ++ init.filter Disk.isOwnName := by
    subst hm hi
    rw [List.filter_append, List.filter_cons_of_pos hown] at hl ⊢
    rw [hdir'.eq_append_of_front ha (fun hm => hup (List.mem_append_left _ hm)) fun q t hq hq' =>
      hl q t hq (hq'.trans (by simp [List.prefix_append_right_inj]))]
    simp [List.prefix_append_right_inj]
  rcases List.append_eq_append_iff.1 hms with ⟨as, hm, hi⟩ | ⟨back, rfl, hb⟩
  · exact below as hm hi
  · cases back with
    | nil => exact below [] (by simp) hb.symm
    | cons m back =>
      obtain ⟨rfl, -⟩ := List.cons.inj hb
      have := ha.isSome_entry? hown (fun hm => hup (List.mem_append_left _ hm)) hdir'
      simp [hn] at this

/-- Making the directories of a path makes them only below the directory that was there. -/
theorem makeDirectories_evolves : Evolves (· <+: dir) (fun _ => False) d
    (makeDirectories (Path.names (Path.normalize path)).dropLast d).2 := by
  refine Disk.makeDirectories_evolves _ d fun d' q r he hq hr hn => ?_
  rcases List.eq_nil_or_concat q with rfl | ⟨q, n, rfl⟩
  · obtain ⟨_, -, -, hn, -⟩ := target_eq_ok hr
    exact absurd hn (by decide)
  · rw [List.concat_eq_append] at hq hr
    exact (h.of_enlarges he).of_missing hq hr hn

end Straight

end Disk
end StylePrune
