import Mathlib.Data.List.Perm.Subperm
import Mathlib.Data.Nat.Find
import StylePrune.Proofs.Descent
import StylePrune.Proofs.Disk.Writing

/-!
Resolving a path against following it. The directory to which a path leads is where its links resolve to, be it
asked on the disk as it is then or on an earlier one, as long as no link is new. What never goes up from there
stays below.
-/

set_option autoImplicit false

namespace StylePrune.Disk

variable {d d' : Disk} {links : Nat} {a p q : Place} {n : Text} {ns : List Text}

theorem mem_entries_of_link {t : Text} (h : d.entry? p = some (.link t)) : (p, .link t) ∈ d.entries.entries := by
  unfold entry? at h
  split at h
  · cases h
  · obtain ⟨e, he, ht⟩ := Option.map_eq_some_iff.1 h
    have hk : e.1 = p := by simpa using List.find?_some he
    obtain rfl : e = (p, .link t) := Prod.ext hk ht
    exact List.mem_of_find?_eq_some he

/-- Links under way are few: each of them is on the disk, and none stands twice. -/
structure Underway (d : Disk) (depth : Nat) (active : List Place) : Prop where
  nodup : active.Nodup
  isLink : ∀ l ∈ active, ∃ t, d.entry? l = some (.link t)
  enough : d.entries.entries.length ≤ depth + active.length

theorem Underway.cons {depth : Nat} {active : List Place} {l : Place} {t : Text} (h : Underway d depth active)
    (hl : d.entry? l = some (.link t)) (hn : l ∉ active) :
    ∃ k, depth = k + 1 ∧ Underway d k (l :: active) := by
  have hnodup : (l :: active).Nodup := List.nodup_cons.2 ⟨hn, h.nodup⟩
  have hlinks : ∀ x ∈ l :: active, ∃ t, d.entry? x = some (.link t) := List.forall_mem_cons.2 ⟨⟨t, hl⟩, h.isLink⟩
  have hlen : (l :: active).length ≤ d.entries.keys.length :=
    (hnodup.subperm fun x hx => (hlinks x hx).elim fun _ hx => List.mem_map_of_mem (mem_entries_of_link hx)).length_le
  have henough := h.enough
  rw [Table.keys, List.length_map, List.length_cons] at hlen
  obtain ⟨k, rfl⟩ : ∃ k, depth = k + 1 := ⟨depth - 1, by omega⟩
  exact ⟨k, rfl, hnodup, hlinks, by rw [List.length_cons]; omega⟩

theorem Leads.of_link {target : Text} (h : Leads d links a [n] p) (hn : isOwnName n = true)
    (he : d.entry? (a ++ [n]) = some (.link target)) : ∃ k, links = k + 1 ∧
      Leads d k (if Path.isAbsolute target then [] else a) (Text.splitOn '/' target) p := by
  cases h with
  | stay _ hn' => exact absurd hn' (isOwnName_iff.1 hn).1
  | up => exact absurd rfl (isOwnName_iff.1 hn).2
  | down _ _ _ he' hl => exact absurd (Option.some.inj (he'.symm.trans he)) (hl target)
  | @link k _ _ _ target' _ _ _ _ he' h =>
    obtain rfl : target' = target := by simpa [he, eq_comm] using he'
    exact ⟨k, rfl, by rwa [List.append_nil] at h⟩

/-- The target of a link can be reached by so few links that the link itself cannot. -/
theorem exists_least_of_link {target : Text} (hn : isOwnName n = true)
    (he : d.entry? (a ++ [n]) = some (.link target))
    (h : Leads d links (if Path.isAbsolute target then [] else a) (Text.splitOn '/' target) q) : ∃ k, k ≤ links ∧
      Leads d k (if Path.isAbsolute target then [] else a) (Text.splitOn '/' target) q ∧
        ∀ q', ¬ Leads d k a [n] q' := by
  classical
  have hex : ∃ k, Leads d k (if Path.isAbsolute target then [] else a) (Text.splitOn '/' target) q := ⟨links, h⟩
  refine ⟨Nat.find hex, Nat.find_min' hex h, Nat.find_spec hex, fun q' hq => ?_⟩
  obtain ⟨k, hk, hin⟩ := hq.of_link hn he
  obtain rfl := hin.unique (Nat.find_spec hex)
  exact Nat.find_min hex (m := k) (by omega) hin

/-- Where a directory stands now no link stood before. -/
theorem Inherits.not_link (hs : Inherits d d') (hp : d'.entry? p = some .directory) (t : Text) :
    d.entry? p ≠ some (.link t) := by
  intro ht
  rcases hs.later _ _ ht with hk | ⟨-, _, _, hf⟩
  · exact absurd (hp.symm.trans hk) (by simp)
  · exact absurd (hp.symm.trans hf) (by simp)

theorem Leads.not_link_start (h : Leads d' links a ns p) (hs : Inherits d d')
    (hp : ∀ t, d.entry? p ≠ some (.link t)) : ∀ t, d.entry? a ≠ some (.link t) := by
  cases h with
  | here => exact hp
  | stay hd | up hd | link hd | down hd => exact hs.not_link hd

/-- A link that is under way is not met again on a way that leads somewhere: it would lead through itself
without end. `links` are fewer than any way through an active link takes. -/
theorem resolveFrom_of_leads (hs : Inherits d d') (h : Leads d' links a ns p)
    (hp : ∀ t, d.entry? p ≠ some (.link t)) {depth : Nat} {active : List Place} (hu : Underway d depth active)
    (ha : ∀ b n q, b ++ [n] ∈ active → ¬ Leads d' links b [n] q) {r : Place × Bool}
    (hr : d.resolveFrom depth active a ns = .ok r) : r = (p, true) := by
  induction links using Nat.strongRecOn generalizing a ns p depth active r with
  | ind links rec =>
  induction ns generalizing a r with
  | nil =>
    cases h
    rw [resolveFrom] at hr
    exact (Except.ok.inj hr).symm
  | cons n ns ih =>
    rw [resolveFrom] at hr
    cases h with
    | stay hd hn h =>
      rw [if_pos hn] at hr
      exact ih h hr
    | up hd h =>
      rw [if_neg (by decide), if_pos rfl] at hr
      exact ih h hr
    | down hd hn hsize he hl h =>
      obtain ⟨hn, hup⟩ := isOwnName_iff.1 hn
      rw [if_neg hn, if_neg hup] at hr
      split at hr
      · cases hr
      · split at hr
        · rename_i t ht
          rcases hs.later _ _ ht with hk | ⟨-, _, _, hf⟩
          · exact absurd (Option.some.inj (he.symm.trans hk)) (hl t)
          · exact absurd (h.eq_of_file hf ▸ ht) (hp t)
        · exact ih h hr
    | @link links _ _ _ target _ hd hn hsize he h =>
      have hown := isOwnName_iff.1 hn
      rw [if_neg hown.1, if_neg hown.2] at hr
      split at hr
      · cases hr
      · have ht := hs.link _ _ he
        obtain ⟨links', q, hle, hq, hrest⟩ := h.exists_of_append
        have hnot : a ++ [n] ∉ active :=
          fun hm => ha a n q hm (.link hd hn hsize he (by rwa [List.append_nil]))
        obtain ⟨depth, rfl, hu'⟩ := hu.cons ht hnot
        simp only [ht, if_neg hnot] at hr
        obtain ⟨k, hk, hin, hleast⟩ := exists_least_of_link hn he hq
        have hact : ∀ b m q, b ++ [m] ∈ (a ++ [n]) :: active → ¬ Leads d' k b [m] q := by
          intro b m q hm hlead
          rcases List.mem_cons.1 hm with hm | hm
          · obtain ⟨rfl, hm⟩ := List.append_inj' hm rfl
            obtain rfl : m = n := by simpa using hm
            exact hleast q hlead
          · exact ha b m q hm (hlead.mono (by omega))
        split at hr
        · cases hr
        · rename_i x hx
          obtain ⟨rfl, -⟩ := Prod.mk.inj (rec _ (by omega) hin (hrest.not_link_start hs hp) hu' hact hx)
          exact rec links' (by omega) hrest hp hu (fun b m q hm hlead => ha b m q hm (hlead.mono (by omega))) hr
        · rename_i x hx
          cases rec _ (by omega) hin (hrest.not_link_start hs hp) hu' hact hx

theorem Leads.forall_isOwnName (h : Leads d links a ns p) (ha : ∀ n ∈ a, isOwnName n = true) :
    ∀ n ∈ p, isOwnName n = true := by
  induction h with
  | here => exact ha
  | stay _ _ _ ih => exact ih ha
  | up _ _ ih => exact ih fun n hn => ha n (List.dropLast_subset _ hn)
  | @link _ _ _ _ target _ _ _ _ _ _ ih =>
    refine ih ?_
    split
    · exact fun _ hn => absurd hn List.not_mem_nil
    · exact ha
  | down _ hn _ _ _ _ ih =>
    refine ih fun m hm => ?_
    rcases List.mem_append.1 hm with hm | hm
    · exact ha m hm
    · exact List.mem_singleton.1 hm ▸ hn

theorem resolve_eq_ok {path : Text} (h : d.resolve path = .ok q) : ∃ r,
    d.resolveFrom d.entries.entries.length [] [] (Text.splitOn '/' path) = .ok r ∧ q = Path.follow true [] r.1 := by
  unfold resolve at h
  cases hr : d.resolveFrom d.entries.entries.length [] [] (Text.splitOn '/' path) with
  | error b =>
    rw [hr] at h
    cases h
  | ok r =>
    rw [hr] at h
    exact ⟨r, rfl, (Except.ok.inj h).symm⟩

/-- A path that leads to what was no link leads to what it resolves to. -/
theorem eq_of_leads_of_not_link {path : Text} (hs : Inherits d d') (h : Leads d' links [] (Text.splitOn '/' path) p)
    (hp : ∀ t, d.entry? p ≠ some (.link t)) (hr : d.resolve path = .ok q) : q = p := by
  obtain ⟨r, hr', rfl⟩ := resolve_eq_ok hr
  have hu : Underway d d.entries.entries.length [] := ⟨List.nodup_nil, by simp, Nat.le_add_right _ _⟩
  obtain rfl := resolveFrom_of_leads hs h hp hu (fun _ _ _ hm => absurd hm List.not_mem_nil) hr'
  have hown := h.forall_isOwnName (fun _ hn => absurd hn List.not_mem_nil)
  have hup : (".." : Text) ∉ p := fun hm => absurd (hown _ hm) (by decide)
  rw [Path.follow_of_not_mem hup, List.reverse_nil, List.nil_append, List.filter_eq_self.2 hown]

/-- A path that leads to a directory leads to what it resolves to. -/
theorem eq_of_leads_of_resolve {path : Text} (hs : Inherits d d') (h : Leads d' links [] (Text.splitOn '/' path) p)
    (hp : d'.entry? p = some .directory) (hr : d.resolve path = .ok q) : q = p :=
  eq_of_leads_of_not_link hs h (hs.not_link hp) hr

/-- The names of a resolved path are pieces of paths. -/
theorem slash_not_mem_of_resolveFrom {depth : Nat} {active : List Place} (ha : ∀ n ∈ a, CodePoint.char '/' ∉ n)
    (hn : ∀ n ∈ ns, CodePoint.char '/' ∉ n) {r : Place × Bool} (h : d.resolveFrom depth active a ns = .ok r) :
    ∀ n ∈ r.1, CodePoint.char '/' ∉ n := by
  have concat {a : Place} {n : Text} {ns : List Text} (ha : ∀ n ∈ a, CodePoint.char '/' ∉ n)
      (hn : ∀ m ∈ n :: ns, CodePoint.char '/' ∉ m) : ∀ m ∈ a ++ [n], CodePoint.char '/' ∉ m := by
    intro m hm
    rcases List.mem_append.1 hm with hm | hm
    · exact ha m hm
    · exact hn m (List.mem_singleton.1 hm ▸ List.mem_cons_self)
  have rejoin {a : Place} {ns : List Text} (ha : ∀ n ∈ a, CodePoint.char '/' ∉ n)
      (hn : ∀ n ∈ ns, CodePoint.char '/' ∉ n) : ∀ n ∈ rejoin a ns, CodePoint.char '/' ∉ n := by
    unfold Disk.rejoin
    split
    · exact fun n hm => hn n (List.mem_cons_of_mem _ hm)
    · exact fun n hm => (List.mem_append.1 hm).elim (ha n) (hn n)
  have base {a : Place} {target : Text} (ha : ∀ n ∈ a, CodePoint.char '/' ∉ n) :
      ∀ n ∈ (if Path.isAbsolute target then [] else a), CodePoint.char '/' ∉ n := by
    split
    · exact fun _ hm => absurd hm List.not_mem_nil
    · exact ha
  fun_induction resolveFrom d depth active a ns generalizing r with
  | case1 => exact Except.ok.inj h ▸ ha
  | case2 depth active a n ns _ ih => exact ih ha (List.forall_mem_cons.1 hn).2 h
  | case3 depth active a ns _ ih =>
    exact ih (fun m hm => ha m (List.dropLast_subset _ hm)) (List.forall_mem_cons.1 hn).2 h
  | case4 => cases h
  | case5 | case6 =>
    obtain rfl := Except.ok.inj h
    exact rejoin (concat ha hn) (List.forall_mem_cons.1 hn).2
  | case7 => cases h
  | case8 active a n ns _ _ _ target _ _ depth q hq ih1 ih2 =>
    exact ih2 (ih1 (base ha) (fun _ => Text.not_mem_of_mem_splitOn) hq) (List.forall_mem_cons.1 hn).2 h
  | case9 active a n ns _ _ _ target _ _ depth q hq ih1 =>
    obtain rfl := Except.ok.inj h
    exact rejoin (ih1 (base ha) (fun _ => Text.not_mem_of_mem_splitOn) hq) (List.forall_mem_cons.1 hn).2
  | case10 depth active a n ns _ _ _ _ ih => exact ih (concat ha hn) (List.forall_mem_cons.1 hn).2 h

theorem plain_pathFollow {done : List Text} (hd : Plain done) (hn : ∀ n ∈ ns, CodePoint.char '/' ∉ n) :
    Plain (Path.follow true done ns) := by
  fun_induction Path.follow true done ns with
  | case1 done => exact fun n hm => hd n (List.mem_reverse.1 hm)
  | case2 done n ns _ ih => exact ih hd (List.forall_mem_cons.1 hn).2
  | case3 done ns hup hs ih =>
    rcases hup with hup | ⟨-, hup⟩
    · exact absurd (List.mem_of_head? hup) hd.not_mem_up
    · cases hup
  | case4 done ns _ _ ih => exact ih (fun n hm => hd n (List.mem_of_mem_tail hm)) (List.forall_mem_cons.1 hn).2
  | case5 done n ns hs hup ih =>
    have hn' := List.forall_mem_cons.1 hn
    exact ih (List.forall_mem_cons.2 ⟨⟨isOwnName_iff.2 ⟨hs, hup⟩, hn'.1⟩, hd⟩) hn'.2

/-- Nowhere stands a link. -/
def Unlinked (d : Disk) : Prop := ∀ p t, d.entry? p ≠ some (.link t)

theorem unlinked_of_entries (h : ∀ e ∈ d.entries.entries, ∀ t, e.2 ≠ .link t) : Unlinked d :=
  fun _ t ht => h _ (mem_entries_of_link ht) t rfl

theorem Unlinked.resolveFrom (h : Unlinked d) (hn : ∀ n ∈ ns, n ≠ ".." ∧ badName? n = none) (depth : Nat)
    (active : List Place) : d.resolveFrom depth active a ns = .ok (a ++ ns.filter isOwnName, true) := by
  induction ns generalizing a with
  | nil => simp [Disk.resolveFrom]
  | cons n ns ih =>
    obtain ⟨⟨hup, hname⟩, hns⟩ := List.forall_mem_cons.1 hn
    rw [Disk.resolveFrom]
    by_cases hstay : n = [] ∨ n = "."
    · have hown : ¬ isOwnName n = true := fun hown => (isOwnName_iff.1 hown).1 hstay
      rw [if_pos hstay, ih hns, List.filter_cons_of_neg hown]
    · rw [if_neg hstay, if_neg hup, hname, List.filter_cons_of_pos (isOwnName_iff.2 ⟨hstay, hup⟩)]
      simp only
      split
      · rename_i t ht
        exact absurd ht (h _ t)
      · rw [ih hns, List.append_assoc, List.singleton_append]

/-- Without links a path that does not go up is its own names. -/
theorem Unlinked.resolve (h : Unlinked d) {path : Text}
    (hn : ∀ n ∈ Text.splitOn '/' path, n ≠ ".." ∧ badName? n = none) :
    d.resolve path = .ok ((Text.splitOn '/' path).filter isOwnName) := by
  have hup : (".." : Text) ∉ (Text.splitOn '/' path).filter isOwnName :=
    fun hm => (hn _ (List.mem_of_mem_filter hm)).1 rfl
  rw [Disk.resolve, h.resolveFrom hn, Except.map, List.nil_append, Path.follow_of_not_mem hup, List.reverse_nil,
    List.nil_append, List.filter_filter]
  simp only [Bool.and_self]

theorem plain_of_resolve {path : Text} (h : d.resolve path = .ok p) : Plain p := by
  obtain ⟨r, hr, rfl⟩ := resolve_eq_ok h
  exact plain_pathFollow (fun _ hm => absurd hm List.not_mem_nil)
    (slash_not_mem_of_resolveFrom (fun _ hm => absurd hm List.not_mem_nil) (fun _ => Text.not_mem_of_mem_splitOn) hr)

theorem isBelow_iff : isBelow p q = true ↔ p <+: q := List.isPrefixOf_iff_prefix

/-- Where no link stands, a way down stays below its start. -/
theorem Leads.isBelow (h : Leads d links a ns p) (hup : (".." : Text) ∉ ns) (ha : isBelow q a = true)
    (hfree : ∀ r t, Disk.isBelow q r = true → d.entry? r ≠ some (.link t)) : isBelow q p = true := by
  induction h with
  | here => exact ha
  | stay _ _ _ ih => exact ih (fun hm => hup (List.mem_cons_of_mem _ hm)) ha
  | up => exact absurd List.mem_cons_self hup
  | link _ _ _ he _ _ => exact absurd he (hfree _ _ (below ha _))
  | down _ _ _ _ _ _ ih => exact ih (fun hm => hup (List.mem_cons_of_mem _ hm)) (below ha _)
where
  below {q a : Place} (h : Disk.isBelow q a = true) (ns : List Text) : Disk.isBelow q (a ++ ns) = true :=
    isBelow_iff.2 ((isBelow_iff.1 h).trans (List.prefix_append a ns))

/-- A path that goes on down from another one puts something below the place to which that one leads. -/
theorem exists_of_target_join {path name : Text} (h : d.target (Path.join path name) = .ok p)
    (hn : Path.Descends name) : ∃ q, Leads d maxLinks [] (Text.splitOn '/' path) q ∧ d.entry? q = some .directory ∧
      ((∀ r t, isBelow q r = true → d.entry? r ≠ some (.link t)) → isBelow q p = true) := by
  obtain ⟨front, hjoin, hfront⟩ := Path.exists_splitOn_join path hn.isRelative
  obtain ⟨ms, last, hname⟩ := Text.exists_splitOn_concat '/' name
  have hup : (".." : Text) ∉ ms := fun hm => hn.not_up (hname ▸ List.mem_append_left _ hm)
  rw [hname, ← List.append_assoc] at hjoin
  obtain ⟨dir, hdir, hd, -, -, rfl⟩ := (target_eq_ok_iff hjoin).1 h
  obtain ⟨links', q, -, hq, hrest⟩ := hdir.exists_of_append
  refine ⟨q, ?_, hrest.isDirectory_start hd, fun hfree => ?_⟩
  · rcases hfront with rfl | hfront
    · exact hq
    · rw [← hfront]
      exact hq.append fun links => .stay (hrest.isDirectory_start hd) (.inl rfl) (.here links q)
  · exact Leads.isBelow.below (hrest.isBelow hup (isBelow_iff.2 (List.prefix_refl q)) hfree) _

end StylePrune.Disk
