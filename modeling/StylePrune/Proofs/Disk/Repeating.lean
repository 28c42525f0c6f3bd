import StylePrune.Proofs.Disk.Links
import StylePrune.Proofs.Disk.Reading

/-!
Writing at a path again. Where a text could be put once another can be put later, at the same place and without any
new directory. Where a path goes straight down and no text could be put, none can be put later either.
-/

set_option autoImplicit false

namespace StylePrune.Disk

variable {d d' d₁ : Disk} {links : Nat} {a p q dir : Place} {n name path text : Text} {ns ms init : List Text}

theorem isDirectory_iff : d.isDirectory path = true ↔ ∃ p, d.find path = .ok p ∧ d.entry? p = some .directory := by
  rw [isDirectory, beq_iff_eq, entryAt?_eq_some_iff]

theorem Later.isDirectory (hl : Later d d') (hk : SameLinks d d') (h : d.isDirectory path = true) :
    d'.isDirectory path = true := by
  obtain ⟨p, hp, hd⟩ := isDirectory_iff.1 h
  rw [find, follow_eq_ok_iff] at hp
  exact isDirectory_iff.2 ⟨p, follow_eq_ok_iff.2 (hl.leads (fun q t => (hk q t).2) hp), hl.directory hd⟩

/-! ## Paths that do not go up -/

theorem Leads.insert_stay (hp : d.entry? p = some .directory) (hn : n = [] ∨ n = ".")
    (h : Leads d links a (ms ++ ns) p) : Leads d links a (ms ++ n :: ns) p := by
  generalize hl : ms ++ ns = l at h
  induction h generalizing ms with
  | here =>
    obtain ⟨rfl, rfl⟩ := List.append_eq_nil_iff.1 hl
    exact .stay hp hn (.here _ _)
  | stay hd hn' h ih =>
    rcases List.append_eq_cons_iff.1 hl with ⟨rfl, rfl⟩ | ⟨ms, rfl, rfl⟩
    · exact .stay hd hn (.stay hd hn' h)
    · exact .stay hd hn' (ih hp rfl)
  | up hd h ih =>
    rcases List.append_eq_cons_iff.1 hl with ⟨rfl, rfl⟩ | ⟨ms, rfl, rfl⟩
    · exact .stay hd hn (.up hd h)
    · exact .up hd (ih hp rfl)
  | link hd hown hs he h ih =>
    rcases List.append_eq_cons_iff.1 hl with ⟨rfl, rfl⟩ | ⟨ms, rfl, rfl⟩
    · exact .stay hd hn (.link hd hown hs he h)
    · exact .link hd hown hs he (by simpa using ih hp (List.append_assoc ..))
  | down hd hown hs he hl' h ih =>
    rcases List.append_eq_cons_iff.1 hl with ⟨rfl, rfl⟩ | ⟨ms, rfl, rfl⟩
    · exact .stay hd hn (.down hd hown hs he hl' h)
    · exact .down hd hown hs he hl' (ih hp rfl)

theorem Leads.erase_stay (hn : n = [] ∨ n = ".") (h : Leads d links a (ms ++ n :: ns) p) :
    Leads d links a (ms ++ ns) p := by
  generalize hl : ms ++ n :: ns = l at h
  induction h generalizing ms with
  | here => simp at hl
  | stay hd hn' h ih =>
    rcases List.append_eq_cons_iff.1 hl with ⟨rfl, hl⟩ | ⟨ms, rfl, rfl⟩
    · obtain ⟨-, rfl⟩ := List.cons.inj hl
      exact h
    · exact .stay hd hn' (ih rfl)
  | up hd h ih =>
    rcases List.append_eq_cons_iff.1 hl with ⟨rfl, hl⟩ | ⟨ms, rfl, rfl⟩
    · obtain ⟨rfl, -⟩ := List.cons.inj hl
      exact absurd hn (by decide)
    · exact .up hd (ih rfl)
  | link hd hown hs he h ih =>
    rcases List.append_eq_cons_iff.1 hl with ⟨rfl, hl⟩ | ⟨ms, rfl, rfl⟩
    · obtain ⟨rfl, -⟩ := List.cons.inj hl
      exact absurd hn (isOwnName_iff.1 hown).1
    · exact .link hd hown hs he (by simpa using ih (List.append_assoc ..))
  | down hd hown hs he hl' h ih =>
    rcases List.append_eq_cons_iff.1 hl with ⟨rfl, hl⟩ | ⟨ms, rfl, rfl⟩
    · obtain ⟨rfl, -⟩ := List.cons.inj hl
      exact absurd hn (isOwnName_iff.1 hown).1
    · exact .down hd hown hs he hl' (ih rfl)

theorem stays_of_not_isOwnName (hown : ¬ isOwnName n = true) (hup : n ≠ "..") : n = [] ∨ n = "." :=
  not_not.1 fun hne => hown (isOwnName_iff.2 ⟨hne, hup⟩)

/-- On any way only own names count, as long as no name goes up. -/
theorem Leads.filter_own (hup : (".." : Text) ∉ ns) (h : Leads d links a (ms ++ ns) p) :
    Leads d links a (ms ++ ns.filter isOwnName) p := by
  induction ns generalizing ms with
  | nil => exact h
  | cons n ns ih =>
    obtain ⟨hn, hns⟩ := not_or.1 (mt List.mem_cons.2 hup)
    by_cases hown : isOwnName n = true
    · have hrest : Leads d links a (ms ++ [n] ++ ns.filter isOwnName) p := ih hns (by simpa using h)
      rw [List.filter_cons_of_pos hown]
      simpa using hrest
    · rw [List.filter_cons_of_neg hown]
      exact ih hns (h.erase_stay (stays_of_not_isOwnName hown (Ne.symm hn)))

theorem Leads.of_filter_own (hp : d.entry? p = some .directory) (hup : (".." : Text) ∉ ns)
    (h : Leads d links a (ms ++ ns.filter isOwnName) p) : Leads d links a (ms ++ ns) p := by
  induction ns generalizing ms with
  | nil => exact h
  | cons n ns ih =>
    obtain ⟨hn, hns⟩ := not_or.1 (mt List.mem_cons.2 hup)
    by_cases hown : isOwnName n = true
    · rw [List.filter_cons_of_pos hown] at h
      have hrest : Leads d links a (ms ++ [n] ++ ns) p := ih hns (by simpa using h)
      simpa using hrest
    · rw [List.filter_cons_of_neg hown] at h
      exact (ih hns h).insert_stay hp (stays_of_not_isOwnName hown (Ne.symm hn))

theorem Leads.own (hup : (".." : Text) ∉ ns) (h : Leads d links a ns p) :
    Leads d links a (ns.filter isOwnName) p := by
  have h : Leads d links a ([] ++ ns) p := h
  exact h.filter_own hup

theorem leads_filter_iff (hp : d.entry? p = some .directory) (hup : (".." : Text) ∉ ns) :
    Leads d links a (ns.filter isOwnName) p ↔ Leads d links a ns p := by
  refine ⟨fun h => ?_, Leads.own hup⟩
  have h : Leads d links a ([] ++ ns.filter isOwnName) p := h
  exact h.of_filter_own hp hup

theorem find_pathOf_iff (hp : Plain p) (hq : d.entry? q = some .directory) :
    d.find (pathOf p) = .ok q ↔ Leads d maxLinks [] p q := by
  have hup : (".." : Text) ∉ Text.splitOn '/' (pathOf p) ∧ (Text.splitOn '/' (pathOf p)).filter isOwnName = p := by
    by_cases hn : p = []
    · subst hn
      exact ⟨by decide, rfl⟩
    · rw [splitOn_pathOf hn hp, List.filter_cons_of_neg (by decide), hp.filter_eq]
      exact ⟨mt List.mem_cons.1 (not_or.2 ⟨by decide, hp.not_mem_up⟩), rfl⟩
  rw [find, follow_eq_ok_iff, ← leads_filter_iff hq hup.1, hup.2]

/-- The directories that are made for a path. -/
def wayTo (path : Text) : Place := (Path.names (Path.normalize path)).dropLast

theorem wayTo_eq (hi : Text.splitOn '/' path = init ++ [name]) (hup : (".." : Text) ∉ init)
    (hn : isOwnName name = true) : wayTo path = init.filter isOwnName ∧ Plain (wayTo path) := by
  have hup' : (".." : Text) ∉ Text.splitOn '/' path := by
    rw [hi]
    refine mt List.mem_append.1 (not_or.2 ⟨hup, fun hm => ?_⟩)
    exact absurd (List.mem_singleton.1 hm ▸ hn) (by decide)
  have hfilter : (Text.splitOn '/' path).filter isOwnName = init.filter isOwnName ++ [name] := by
    rw [hi, List.filter_append, List.filter_cons_of_pos hn, List.filter_nil]
  have hway : wayTo path = init.filter isOwnName := by
    rw [wayTo, Path.names_normalize hup' (by simp [hfilter]), hfilter, List.dropLast_concat]
  refine ⟨hway, fun m hm => ?_⟩
  rw [hway] at hm
  have hm := List.mem_filter.1 hm
  exact ⟨hm.2, Text.not_mem_of_mem_splitOn (hi ▸ List.mem_append_left _ hm.1)⟩

/-- A path that does not go up puts something where the directories made for it lead. -/
theorem target_eq_ok_iff_find (hi : Text.splitOn '/' path = init ++ [name]) (hup : (".." : Text) ∉ init)
    (hn : isOwnName name = true) : d.target path = .ok p ↔ ∃ dir, d.find (pathOf (wayTo path)) = .ok dir ∧
      d.entry? dir = some .directory ∧ Text.utf8Size name ≤ maxName ∧ p = dir ++ [name] := by
  obtain ⟨hway, hplain⟩ := wayTo_eq hi hup hn
  have hiff {dir : Place} (hd : d.entry? dir = some .directory) :
      Leads d maxLinks [] init dir ↔ d.find (pathOf (wayTo path)) = .ok dir := by
    rw [find_pathOf_iff hplain hd, hway]
    exact (leads_filter_iff hd hup).symm
  rw [target_eq_ok_iff hi]
  constructor
  · rintro ⟨dir, hdir, hd, -, hs, rfl⟩
    exact ⟨dir, (hiff hd).1 hdir, hd, hs, rfl⟩
  · rintro ⟨dir, hdir, hd, hs, rfl⟩
    exact ⟨dir, (hiff hd).2 hdir, hd, hn, hs, rfl⟩

theorem target_pathOf_iff (hp : Plain (p ++ [n])) : d.target (pathOf (p ++ [n])) = .ok q ↔ ∃ dir,
    d.find (pathOf p) = .ok dir ∧ d.entry? dir = some .directory ∧ Text.utf8Size n ≤ maxName ∧ q = dir ++ [n] := by
  have hi : Text.splitOn '/' (pathOf (p ++ [n])) = ([] :: p) ++ [n] := splitOn_pathOf (by simp) hp
  have hup : (".." : Text) ∉ [] :: p := mt List.mem_cons.1
    (not_or.2 ⟨by decide, fun hm => hp.not_mem_up (List.mem_append_left _ hm)⟩)
  rw [target_eq_ok_iff_find hi hup (hp n (by simp)).1, wayTo, Path.names_normalize_pathOf hp, List.dropLast_concat]

/-! ## Directories -/

theorem mkdir_of_find (h : d.find path = .ok p) : ∃ e, mkdir path d = (.error e, d) := by
  unfold mkdir
  split
  · exact ⟨_, rfl⟩
  · rename_i r hr
    refine ⟨_, if_pos ?_⟩
    obtain ⟨init, n, hi⟩ := Text.exists_splitOn_concat '/' path
    obtain ⟨dir, hdir, hd, hn, -, rfl⟩ := (target_eq_ok_iff hi).1 hr
    rw [find, follow_eq_ok_iff, hi] at h
    obtain ⟨_, dir', -, hdir', hlast⟩ := h.exists_of_append
    obtain rfl := hdir.unique hdir'
    cases hlast with
    | stay _ hn' => exact absurd hn' (isOwnName_iff.1 hn).1
    | up => exact absurd rfl (isOwnName_iff.1 hn).2
    | link _ _ _ he => simp [he]
    | down _ _ _ he => simp [he]

theorem isDirectory_root (d : Disk) : d.isDirectory (pathOf []) = true :=
  isDirectory_iff.2 ⟨[], (find_pathOf_iff (fun _ hn => absurd hn List.not_mem_nil) rfl).2 (.here _ _), rfl⟩

theorem exists?_iff : d.exists? path = true ↔ ∃ p e, d.find path = .ok p ∧ d.entry? p = some e := by
  rw [exists?, Option.isSome_iff_exists]
  simp only [entryAt?_eq_some_iff]
  exact ⟨fun ⟨e, p, h⟩ => ⟨p, e, h⟩, fun ⟨p, e, h⟩ => ⟨e, p, h⟩⟩

/-- A directory that is there need not be made. -/
theorem makeDirectories_of_isDirectory (hp : Plain p) (h : d.isDirectory (pathOf p) = true) :
    makeDirectories p d = (.ok (), d) := by
  obtain rfl | ⟨ns, n, rfl⟩ := List.eq_nil_or_concat p
  · rw [makeDirectories, dif_pos rfl]
  · rw [List.concat_eq_append] at *
    obtain ⟨q, hq, hd⟩ := isDirectory_iff.1 h
    have hparent : d.exists? (pathOf ns) = true := by
      obtain ⟨_, dir, -, hdir, hlast⟩ := ((find_pathOf_iff hp hd).1 hq).exists_of_append
      have hdirectory := hlast.isDirectory_start hd
      exact exists?_iff.2 ⟨dir, _, (find_pathOf_iff (fun m hm => hp m (List.mem_append_left _ hm)) hdirectory).2 hdir,
        hdirectory⟩
    obtain ⟨e, he⟩ := mkdir_of_find hq
    rw [makeDirectories, dif_neg (by simp)]
    simp only [List.dropLast_concat, hparent, if_true, he, h]

theorem mkdir_eq_ok (h : mkdir path d = (.ok (), d')) :
    ∃ q, d.target path = .ok q ∧ d.entry? q = none ∧ d' = d.set q .directory := by
  unfold mkdir at h
  split at h
  · cases h
  · rename_i q hq
    by_cases hn : (d.entry? q).isSome
    · rw [if_pos hn] at h
      cases h
    · rw [if_neg hn] at h
      exact ⟨q, hq, by simpa using hn, (Prod.mk.inj h).2.symm⟩

theorem isDirectory_of_mkdir (h : mkdir path d = (.ok (), d')) : d'.isDirectory path = true := by
  obtain ⟨q, hq, hnone, rfl⟩ := mkdir_eq_ok h
  have hne := ne_nil_of_target hq
  have he : entry? (d.set q .directory) q = some .directory := by rw [entry?_set hne, if_pos rfl]
  have hg : Grows d (d.set q .directory) := fun r e hr => by
    rw [entry?_set hne, if_neg, hr]
    rintro rfl
    simp [hr] at hnone
  exact isDirectory_iff.2 ⟨q, find_of_target (hg.target hq) he (by simp), he⟩

/-- Makes the directories on the way to a place, as far as they are missing. -/
def makeWay (p : Place) : Action Errno Unit := fun d =>
  if d.exists? (pathOf p) then (.ok (), d)
  else match makeDirectories p d with
  | (.error .exists_, d) => (.ok (), d)
  | r => r

/-- Makes a directory in one that is there. One that is there already will do. -/
def makeLast (p : Place) : Action Errno Unit := fun d =>
  match mkdir (pathOf p) d with
  | (.error e, d) => if d.isDirectory (pathOf p) then (.ok (), d) else (.error e, d)
  | r => r

/-- Makes a directory once it is known what became of the directories on the way to it. -/
def makeAfter (p : Place) (way : Except Errno Unit × Disk) : Except Errno Unit × Disk :=
  match way.1 with
  | .error e => (.error e, way.2)
  | .ok () => makeLast p way.2

theorem makeDirectories_concat (p : Place) (n : Text) :
    makeDirectories (p ++ [n]) = (do makeWay p; makeLast (p ++ [n]) : Action Errno Unit) := by
  funext d
  have hafter : makeDirectories (p ++ [n]) d = makeAfter (p ++ [n]) (makeWay p d) := by
    rw [makeDirectories, dif_neg (by simp)]
    simp only [List.dropLast_concat]
    rfl
  rw [hafter]
  cases h : makeWay p d with
  | mk r d₁ => cases r with
    | error e => rw [Action.bind_of_error h, makeAfter]
    | ok _ => rw [Action.bind_of_ok h, makeAfter]

theorem isDirectory_of_makeLast (h : makeLast p d = (.ok (), d')) : d'.isDirectory (pathOf p) = true := by
  unfold makeLast at h
  cases hm : mkdir (pathOf p) d with
  | mk r d₁ =>
    rw [hm] at h
    cases r with
    | ok _ =>
      obtain ⟨-, rfl⟩ := Prod.mk.inj h
      exact isDirectory_of_mkdir hm
    | error e =>
      dsimp only at h
      split at h
      · rename_i hd
        obtain ⟨-, rfl⟩ := Prod.mk.inj h
        exact hd
      · cases h

/-- A directory that was made is there. -/
theorem isDirectory_of_makeDirectories (h : makeDirectories p d = (.ok (), d')) : d'.isDirectory (pathOf p) = true := by
  obtain rfl | ⟨ns, n, rfl⟩ := List.eq_nil_or_concat p
  · exact isDirectory_root d'
  · rw [List.concat_eq_append] at *
    rw [makeDirectories_concat] at h
    obtain ⟨-, d₁, -, h⟩ := Action.bind_eq_ok h
    exact isDirectory_of_makeLast h

theorem makeWay_of_makeDirectories (hp : Plain p) (h : makeDirectories p d = (.ok (), d')) :
    makeWay p d = (.ok (), d') := by
  unfold makeWay
  split
  · rename_i hex
    -- what is there of the way is all of it, and then nothing is made
    obtain ⟨q, e, hq, he⟩ := exists?_iff.1 hex
    obtain ⟨q', hq', hd⟩ := isDirectory_iff.1 (isDirectory_of_makeDirectories h)
    have hg := makeDirectories_grows p d
    rw [h] at hg
    rw [find, follow_eq_ok_iff] at hq hq'
    obtain rfl := (hg.leads hq).unique hq'
    obtain rfl := Option.some.inj ((hg q e he).symm.trans hd)
    have hid : d.isDirectory (pathOf p) = true := isDirectory_iff.2 ⟨q, follow_eq_ok_iff.2 hq, he⟩
    rwa [makeDirectories_of_isDirectory hp hid] at h
  · rw [h]

/-- In a directory that is there another one can be made, if nothing else stands at its place. -/
theorem exists_makeLast (hp : Plain (p ++ [n])) (hf : d.find (pathOf p) = .ok dir)
    (hd : d.entry? dir = some .directory) (hs : Text.utf8Size n ≤ maxName)
    (he : d.entry? (dir ++ [n]) = none ∨ d.entry? (dir ++ [n]) = some .directory) :
    ∃ d', makeLast (p ++ [n]) d = (.ok (), d') ∧ d'.find (pathOf (p ++ [n])) = .ok (dir ++ [n]) ∧
      ∀ q, d'.entry? q = if q = dir ++ [n] then some .directory else d.entry? q := by
  have ht : d.target (pathOf (p ++ [n])) = .ok (dir ++ [n]) := (target_pathOf_iff hp).2 ⟨dir, hf, hd, hs, rfl⟩
  rcases he with hnone | hthere
  · have hm : mkdir (pathOf (p ++ [n])) d = (.ok (), d.set (dir ++ [n]) .directory) := by simp [mkdir, ht, hnone]
    have hset := entry?_set (p := dir ++ [n]) (by simp) d .directory
    have hg := mkdir_grows (pathOf (p ++ [n])) d
    rw [hm] at hg
    refine ⟨_, by simp only [makeLast, hm], ?_, hset⟩
    exact find_of_target (hg.target ht) (by rw [hset, if_pos rfl]) (by simp)
  · have hfind := find_of_target ht hthere (by simp)
    obtain ⟨e, hm⟩ := mkdir_of_find hfind
    have hid : d.isDirectory (pathOf (p ++ [n])) = true := isDirectory_iff.2 ⟨_, hfind, hthere⟩
    refine ⟨d, by simp [makeLast, hm, hid], hfind, fun q => ?_⟩
    split
    · rename_i hq
      exact hq ▸ hthere
    · rfl

/-- Below a directory that is there directories can be made where none of them is anything else. -/
theorem exists_makeDirectories (hp : Plain (p ++ ns)) (ha : Leads d maxLinks [] p a)
    (hd : d.entry? a = some .directory) (hs : ∀ n ∈ ns, Text.utf8Size n ≤ maxName)
    (hc : ∀ q, a <+: q → q <+: a ++ ns → d.entry? q = none ∨ d.entry? q = some .directory) :
    ∃ d', makeDirectories (p ++ ns) d = (.ok (), d') ∧ d'.find (pathOf (p ++ ns)) = .ok (a ++ ns) ∧
      d'.entry? (a ++ ns) = some .directory ∧ ∀ q, ¬ q <+: a ++ ns → d'.entry? q = d.entry? q := by
  induction ns using List.reverseRecOn with
  | nil =>
    rw [List.append_nil] at hp ⊢
    rw [List.append_nil]
    have hf := (find_pathOf_iff hp hd).2 ha
    exact ⟨d, makeDirectories_of_isDirectory hp (isDirectory_iff.2 ⟨a, hf, hd⟩), hf, hd, fun _ _ => rfl⟩
  | append_singleton ns n ih =>
    rw [← List.append_assoc] at hp
    have hpar : Plain (p ++ ns) := fun m hm => hp m (List.mem_append_left _ hm)
    obtain ⟨d₁, hmake, hfind, hdir, hother⟩ := ih hpar (fun m hm => hs m (List.mem_append_left _ hm))
      fun q hq hq' => hc q hq (hq'.trans (by simp [List.prefix_append_right_inj]))
    have hlast : d₁.entry? (a ++ ns ++ [n]) = d.entry? (a ++ ns ++ [n]) := hother _ fun hle => by
      have := hle.length_le
      rw [List.length_append, List.length_singleton] at this
      omega
    have he := hc (a ++ ns ++ [n]) (by simp [List.append_assoc]) (by simp)
    rw [← hlast] at he
    obtain ⟨d₂, hmake', hfind', hentry⟩ := exists_makeLast hp hfind hdir (hs n (by simp)) he
    rw [← List.append_assoc, ← List.append_assoc]
    refine ⟨d₂, ?_, hfind', by rw [hentry, if_pos rfl], fun q hq => ?_⟩
    · rw [makeDirectories_concat, Action.bind_of_ok (makeWay_of_makeDirectories hpar hmake), hmake']
    · have hne : q ≠ a ++ ns ++ [n] := by
        rintro rfl
        exact hq (List.prefix_refl _)
      rw [hentry, if_neg hne, hother q fun hle => hq (hle.trans (List.prefix_append _ [n]))]

/-- All places on a way down to a directory are directories. -/
theorem Leads.isDirectory (h : Leads d links a ns p) (hp : d.entry? p = some .directory) (hup : (".." : Text) ∉ ns)
    (hl : ∀ q t, a <+: q → q <+: a ++ ns.filter isOwnName → d.entry? q ≠ some (.link t)) :
    ∀ q, a <+: q → q <+: a ++ ns.filter isOwnName → d.entry? q = some .directory := by
  induction h with
  | here =>
    intro q hq hq'
    rw [List.filter_nil, List.append_nil] at hq'
    rwa [← hq.eq_of_length_le hq'.length_le]
  | @stay _ _ _ n ns hd hn _ ih =>
    have hown : ¬ isOwnName n = true := fun hown => (isOwnName_iff.1 hown).1 hn
    rw [List.filter_cons_of_neg hown] at hl ⊢
    exact ih hp (fun hm => hup (List.mem_cons_of_mem n hm)) hl
  | up => exact absurd List.mem_cons_self hup
  | link _ hown _ he _ _ =>
    rw [List.filter_cons_of_pos hown] at hl
    exact absurd he (hl _ _ (List.prefix_append _ _) (by simp [List.prefix_append_right_inj]))
  | @down _ a _ n ns _ hd hown _ _ _ _ ih =>
    rw [List.filter_cons_of_pos hown] at hl ⊢
    have below (q : Place) (hq : a ++ [n] <+: q) (hq' : q <+: a ++ n :: ns.filter isOwnName) :
        q <+: a ++ [n] ++ ns.filter isOwnName := by simpa using hq'
    intro q hq hq'
    obtain ⟨ms, rfl⟩ := hq
    cases ms with
    | nil => simpa using hd
    | cons m ms =>
      obtain ⟨rfl, -⟩ := List.cons_prefix_cons.1 ((List.prefix_append_right_inj a).1 hq')
      refine ih hp (fun hm => hup (List.mem_cons_of_mem m hm)) (fun q t hq hq' => ?_) _ (by simp) (by simpa using hq')
      exact hl q t ((List.prefix_append a [m]).trans hq) (by simpa using hq')

/-- What a way leads to is there, and so is everything above it. -/
theorem Leads.isSome_end (h : Leads d links a ns p) (ha : ∀ q, q <+: a → q ≠ a → d.entry? q = some .directory)
    (he : (d.entry? a).isSome) : (d.entry? p).isSome := by
  induction h with
  | here => exact he
  | stay _ _ _ ih => exact ih ha he
  | @up _ a _ _ hd _ ih =>
    have hup (q : Place) (hq : q <+: a.dropLast) : d.entry? q = some .directory := by
      by_cases hqa : q = a
      · exact hqa ▸ hd
      · exact ha q (hq.trans (List.dropLast_prefix a)) hqa
    exact ih (fun q hq _ => hup q hq) (by rw [hup _ (List.prefix_refl _)]; rfl)
  | link hd _ _ _ _ ih =>
    refine ih ?_ ?_
    · split
      · exact fun q hq hne => absurd (List.prefix_nil.1 hq) hne
      · exact ha
    · split
      · rfl
      · exact he
  | @down _ a _ n _ _ hd _ _ he' _ _ ih =>
    refine ih (fun q hq hne => ?_) (by rw [he']; rfl)
    rcases List.prefix_concat_iff.1 hq with rfl | hq
    · exact absurd rfl hne
    · by_cases hqa : q = a
      · exact hqa ▸ hd
      · exact ha q hq hqa

/-! ## Files -/

/-- Puts a text at a path in a directory that is there. -/
def putFile (path text : Text) (refuse : Bool) : Action WriteError Unit := fun d =>
  match Utf8.encode? text with
  | none => (.error .unspellable, d)
  | some content =>
    if refuse then (.error (.errno .refused), d)
    else match d.target path with
    | .error e => (.error (.errno e), d)
    | .ok p => match d.entry? p with
      | some .directory => (.error (.errno .isDirectory), d)
      | _ => (.ok (), d.set p (.file content 0))

theorem replaceFile_of_makeDirectories {refuse : Bool} (h : makeDirectories (wayTo path) d = (.ok (), d₁)) :
    replaceFile path text refuse d = putFile path text refuse d₁ := by
  obtain ⟨q, hq, -⟩ := isDirectory_iff.1 (isDirectory_of_makeDirectories h)
  rw [wayTo] at h hq
  rw [replaceFile, Action.bind_of_ok (Action.mapError_of_ok h _), putFile, hq]
  cases Utf8.encode? text with
  | none => rfl
  | some content => rfl

theorem replaceFile_of_makeDirectories_error {refuse : Bool} {e : Errno}
    (h : makeDirectories (wayTo path) d = (.error e, d₁)) : replaceFile path text refuse d = (.error (.errno e), d₁) := by
  rw [wayTo] at h
  rw [replaceFile, Action.bind_of_error (Action.mapError_of_error h _)]

theorem putFile_eq_ok {refuse : Bool} (h : putFile path text refuse d = (.ok (), d')) : refuse = false ∧
    ∃ content p, Utf8.encode? text = some content ∧ d.target path = .ok p ∧ d.entry? p ≠ some .directory ∧
      d' = d.set p (.file content 0) := by
  unfold putFile at h
  split at h
  · cases h
  · rename_i content hc
    split at h
    · cases h
    · rename_i hr
      split at h
      · cases h
      · rename_i p hp
        split at h
        · cases h
        · rename_i hn
          exact ⟨by simpa using hr, content, p, hc, hp, hn, (Prod.mk.inj h).2.symm⟩

theorem putFile_of_target {content : Bytes} (hc : Utf8.encode? text = some content) (ht : d.target path = .ok p)
    (hn : d.entry? p ≠ some .directory) : putFile path text false d = (.ok (), d.set p (.file content 0)) := by
  simp only [putFile, hc, ht, Bool.false_eq_true, if_false]

/-- A text has been put at a place by way of a path, and the way is still there. -/
structure Laid (d : Disk) (path : Text) (p : Place) : Prop where
  way : d.isDirectory (pathOf (wayTo path)) = true
  target : d.target path = .ok p
  isFile : ∃ content modified, d.entry? p = some (.file content modified)

theorem Laid.later (h : Laid d path p) (hl : Later d d') (hk : SameLinks d d') : Laid d' path p := by
  obtain ⟨content, modified, hf⟩ := h.isFile
  exact ⟨hl.isDirectory hk h.way, hl.target (fun q t => (hk q t).2) h.target, hl.isFile hf⟩

/-- Where a text has been put another one can be put, and nothing else changes then. -/
theorem Laid.replaceFile {content : Bytes} (h : Laid d path p) (hp : Plain (wayTo path))
    (hc : Utf8.encode? text = some content) : Disk.replaceFile path text false d = (.ok (), d.set p (.file content 0)) := by
  obtain ⟨c, m, hf⟩ := h.isFile
  rw [replaceFile_of_makeDirectories (makeDirectories_of_isDirectory hp h.way), putFile_of_target hc h.target (by simp [hf])]

theorem laid_of_replaceFile {refuse : Bool} (h : replaceFile path text refuse d = (.ok (), d'))
    (hk : SameLinks d d') : ∃ p content d₁, Laid d' path p ∧ Utf8.encode? text = some content ∧ refuse = false ∧
      Evolves anywhere (fun _ => False) d d₁ ∧ d' = d₁.set p (.file content 0) ∧ p ≠ [] := by
  have he : Evolves anywhere (fun _ => False) d (makeDirectories (wayTo path) d).2 :=
    makeDirectories_evolves _ d fun _ _ _ _ _ _ _ => trivial
  cases hm : makeDirectories (wayTo path) d with
  | mk r d₁ =>
    rw [hm] at he
    cases r with
    | error e =>
      rw [replaceFile_of_makeDirectories_error hm] at h
      cases h
    | ok _ =>
      rw [replaceFile_of_makeDirectories hm] at h
      obtain ⟨hr, content, p, hc, ht, hn, rfl⟩ := putFile_eq_ok h
      have hp := ne_nil_of_target ht
      have hl : Later d₁ (d₁.set p (.file content 0)) := later_set hp hn
      have hk₁ := he.enlarges.sameLinks.symm.trans hk
      refine ⟨p, content, d₁, ⟨hl.isDirectory hk₁ (isDirectory_of_makeDirectories hm),
        hl.target (fun q t => (hk₁ q t).2) ht, content, 0, ?_⟩, hc, hr, he, rfl, hp⟩
      rw [entry?_set hp, if_pos rfl]

/-- A write that succeeds has a name to write at. -/
theorem isOwnName_of_replaceFile {refuse : Bool} (h : (replaceFile path text refuse d).1 = .ok ())
    (hi : Text.splitOn '/' path = init ++ [name]) : isOwnName name = true := by
  obtain ⟨d₁, -, ⟨⟨e, he⟩, -⟩ | ⟨-, p, content, ht, -⟩⟩ := replaceFile_cases (Prod.ext h rfl)
  · cases he
  · obtain ⟨-, -, -, hn, -⟩ := (target_eq_ok_iff hi).1 ht
    exact hn

namespace Straight

variable (h : Straight d path dir name) (hl : Later d d') (hk : SameLinks d d')
include h

theorem splits : ∃ init, Text.splitOn '/' path = init ++ [name] ∧ (".." : Text) ∉ init := by
  obtain ⟨front, init, a, hi, hup, -⟩ := h.exists_front
  exact ⟨front ++ init, hi, hup⟩

theorem plain_wayTo : Plain (wayTo path) := by
  obtain ⟨init, hi, hup⟩ := h.splits
  exact (wayTo_eq hi hup h.isOwnName).2

/-- The directories that are made, above and below the directory that is there. -/
theorem exists_wayTo : ∃ front ns a, wayTo path = front ++ ns ∧ Leads d maxLinks [] front a ∧ dir = a ++ ns ∧
    ∀ q t, a <+: q → q <+: dir ++ [name] → d.entry? q ≠ some (.link t) := by
  obtain ⟨front, init, a, hi, hup, ha, hdir, hlinks⟩ := h.exists_front
  refine ⟨front.filter Disk.isOwnName, init.filter Disk.isOwnName, a, ?_, ?_, hdir, hlinks⟩
  · rw [(wayTo_eq hi hup h.isOwnName).1, List.filter_append]
  · exact Leads.own (fun hm => hup (List.mem_append_left _ hm)) ha

theorem target_eq_ok_iff {d : Disk} : d.target path = .ok p ↔ ∃ dir, d.find (pathOf (wayTo path)) = .ok dir ∧
    d.entry? dir = some .directory ∧ Text.utf8Size name ≤ maxName ∧ p = dir ++ [name] := by
  obtain ⟨init, hi, hup⟩ := h.splits
  exact target_eq_ok_iff_find hi hup h.isOwnName

include hl hk

theorem later : Straight d' path dir name := by
  obtain ⟨front, init, a, hi, hup, ha, hdir, hlinks⟩ := h.exists_front
  exact ⟨⟨front, init, a, hi, hup, hl.leads (fun q t => (hk q t).2) ha, hdir,
    fun q t hq hq' ht => hlinks q t hq hq' ((hk q t).1 ht)⟩, h.isOwnName⟩

/-- The directories for a path could be made earlier if they can be made now. -/
theorem makeDirectories_earlier (hok : (makeDirectories (wayTo path) d').1 = .ok ()) :
    ∃ d₁, makeDirectories (wayTo path) d = (.ok (), d₁) ∧ d₁.find (pathOf (wayTo path)) = .ok dir ∧
      d₁.entry? dir = some .directory ∧ ∀ q, ¬ q <+: dir → d₁.entry? q = d.entry? q := by
  obtain ⟨front, ns, a, hway, ha, rfl, hlinks⟩ := h.exists_wayTo
  have hplain := h.plain_wayTo
  rw [hway] at hplain hok ⊢
  have hns : Plain ns := hplain.of_append_right
  cases hm : makeDirectories (front ++ ns) d' with
  | mk r e =>
    rw [hm] at hok
    subst hok
    -- the directories that are there now, on the whole of the way
    have he := makeDirectories_enlarges (front ++ ns) d'
    rw [hm] at he
    have hke := hk.trans he.sameLinks
    obtain ⟨b, hb, hbd⟩ := isDirectory_iff.1 (isDirectory_of_makeDirectories hm)
    have hb := (find_pathOf_iff hplain hbd).1 hb
    obtain ⟨k, a', -, ha', hrest⟩ := hb.exists_of_append
    obtain rfl := (he.grows.leads (hl.leads (fun q t => (hk q t).2) ha)).unique ha'
    have hfree (q : Place) (t : Text) (hq : a <+: q) (hq' : q <+: a ++ ns.filter Disk.isOwnName) :
        e.entry? q ≠ some (.link t) := by
      rw [hns.filter_eq] at hq'
      exact fun ht => hlinks q t hq (hq'.trans (List.prefix_append _ [name])) ((hke q t).1 ht)
    obtain rfl := hrest.eq_append hns.not_mem_up hfree
    have hdirs := hrest.isDirectory hbd hns.not_mem_up hfree
    rw [hns.filter_eq] at hdirs
    -- so nothing else stood there before
    have hclear : ∀ q, a <+: q → q <+: a ++ ns → d.entry? q = none ∨ d.entry? q = some .directory := by
      intro q hq hq'
      cases hentry : d.entry? q with
      | none => exact .inl rfl
      | some x =>
        have hnow := hdirs q hq hq'
        rcases hl q x hentry with hx | ⟨-, c, m, hx⟩
        · exact .inr ((he.grows q x hx).symm.trans hnow)
        · exact absurd ((he.grows q _ hx).symm.trans hnow) (by simp)
    have hthere := ha.isSome_end (fun q hq hne => absurd (List.prefix_nil.1 hq) hne) rfl
    have hd : d.entry? a = some .directory := by
      rcases hclear a (List.prefix_refl a) (List.prefix_append a ns) with hn | hd
      · simp [hn] at hthere
      · exact hd
    exact exists_makeDirectories hplain ha hd
      (fun n hn => hb.size_le n (List.mem_append_right _ hn) (hns n hn).1) hclear

/-- What could not be put earlier cannot be put now. -/
theorem replaceFile_earlier {refuse : Bool} (hok : (replaceFile path text refuse d').1 = .ok ()) :
    (replaceFile path text refuse d).1 = .ok () := by
  cases hm' : makeDirectories (wayTo path) d' with
  | mk r e =>
    have he := makeDirectories_enlarges (wayTo path) d'
    rw [hm'] at he
    cases r with
    | error x =>
      rw [replaceFile_of_makeDirectories_error hm'] at hok
      cases hok
    | ok _ =>
      rw [replaceFile_of_makeDirectories hm'] at hok
      obtain ⟨rfl, content, p, hc, ht, hn, -⟩ := putFile_eq_ok (Prod.ext hok rfl)
      obtain rfl := ((h.later hl hk).of_enlarges he).of_target ht
      obtain ⟨-, -, -, hs, -⟩ := h.target_eq_ok_iff.1 ht
      obtain ⟨d₁, hm, hfind, hd, hother⟩ := h.makeDirectories_earlier hl hk (by rw [hm'])
      have hn₁ : d₁.entry? (dir ++ [name]) ≠ some .directory := by
        rw [hother _ fun hle => by simpa using hle.length_le]
        exact fun hdir => hn (he.grows _ _ (hl.directory hdir))
      rw [replaceFile_of_makeDirectories hm,
        putFile_of_target hc (h.target_eq_ok_iff.2 ⟨dir, hfind, hd, hs, rfl⟩) hn₁]

end Straight

end StylePrune.Disk
