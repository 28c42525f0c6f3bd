import StylePrune.Proofs.Disk.Settling
import StylePrune.Proofs.Site

/-!
A site wherever it stands. Names that stay on a site, never up from its root and over no absolute link, are resolved
and followed to the same place of it on every disk that has the site, and so a stylesheet is read alike.
-/

set_option autoImplicit false

namespace StylePrune

namespace Path

variable {done front ns : List Text}

/-- Once a path has gone up from where it starts it does not come back. -/
theorem up_mem_follow (h : (".." : Text) ∈ done) : (".." : Text) ∈ follow false done ns := by
  fun_induction follow false done ns with
  | case1 done => exact List.mem_reverse.2 h
  | case2 done n ns hn ih => exact ih h
  | case3 done ns hn hs ih => exact ih (List.mem_cons_of_mem _ h)
  | case4 done ns hs hn ih =>
    refine ih ?_
    cases done with
    | nil => exact absurd h List.not_mem_nil
    | cons m done => exact (List.mem_cons.1 h).resolve_left fun he => hs (.inl (congrArg some he.symm))
  | case5 done n ns hn hup ih => exact ih (List.mem_cons_of_mem _ h)

/-- A path that does not go up from where it starts has the same names wherever it starts. -/
theorem follow_append (hup : (".." : Text) ∉ follow false done ns) :
    follow true (done ++ front) ns = front.reverse ++ follow false done ns := by
  fun_induction follow false done ns with
  | case1 done => rw [follow, List.reverse_append]
  | case2 done n ns hn ih => rw [follow, if_pos hn, ih hup]
  | case3 done ns hn hs ih => exact absurd (up_mem_follow List.mem_cons_self) hup
  | case4 done ns hs hn ih =>
    cases done with
    | nil => exact absurd (.inr ⟨rfl, rfl⟩) hs
    | cons m done =>
      have hm : ¬ ((m :: done ++ front).head? = some ".." ∨ m :: done ++ front = [] ∧ (!true) = true) :=
        not_or.2 ⟨fun h => hs (.inl h), fun h => by cases h.2⟩
      rw [follow, if_neg hn, if_pos rfl, if_neg hm]
      exact ih hup
  | case5 done n ns hn hup' ih =>
    rw [follow, if_neg hn, if_neg hup']
    exact ih hup

theorem follow_append_of_isOwnName {ms : List Text} (h : ∀ n ∈ ms, Disk.isOwnName n = true) (done ns : List Text) :
    follow true done (ms ++ ns) = follow true (ms.reverse ++ done) ns := by
  induction ms generalizing done with
  | nil => rfl
  | cons m ms ih =>
    obtain ⟨hown, hms⟩ := List.forall_mem_cons.1 h
    obtain ⟨hstay, hup⟩ := Disk.isOwnName_iff.1 hown
    rw [List.cons_append, follow, if_neg hstay, if_neg hup, ih hms]
    simp

end Path

namespace Disk

variable {d : Disk} {depth links : Nat} {ws : List Place} {a p q r : Place} {n t root file : Text} {ns ms : List Text}
  {site : Place → Option Entry}

/-- Names lead from a place of a site to another one of it, or to a name that no file has. `false` says that a link
leads back to itself. On the way they never go up from the site's root nor over an absolute link, and after a link that
leads back to itself they do not start again. `ws` are the links that are being resolved. -/
inductive Stays (site : Place → Option Entry) : List Place → Place → List Text → Except BadName (Place × Bool) → Prop
  | here {ws : List Place} {q : Place} : Stays site ws q [] (.ok (q, true))
  | stay {ws : List Place} {q : Place} {n : Text} {ns : List Text} {x : Except BadName (Place × Bool)}
      (hn : n = [] ∨ n = ".") (h : Stays site ws q ns x) : Stays site ws q (n :: ns) x
  | up {ws : List Place} {q : Place} {ns : List Text} {x : Except BadName (Place × Bool)} (hq : q ≠ [])
      (h : Stays site ws q.dropLast ns x) : Stays site ws q (".." :: ns) x
  | bad {ws : List Place} {q : Place} {n : Text} {ns : List Text} {b : BadName} (hn : isOwnName n = true)
      (hb : badName? n = some b) : Stays site ws q (n :: ns) (.error b)
  | down {ws : List Place} {q : Place} {n : Text} {ns : List Text} {x : Except BadName (Place × Bool)}
      (hn : isOwnName n = true) (hb : badName? n = none) (hl : ∀ t, site (q ++ [n]) ≠ some (.link t))
      (h : Stays site ws (q ++ [n]) ns x) : Stays site ws q (n :: ns) x
  | link {ws : List Place} {p q : Place} {n t : Text} {ns : List Text} {x : Except BadName (Place × Bool)}
      (hn : isOwnName n = true) (hb : badName? n = none) (hl : site (q ++ [n]) = some (.link t))
      (hw : q ++ [n] ∉ ws) (ht : Path.isAbsolute t = false)
      (hin : Stays site ((q ++ [n]) :: ws) q (Text.splitOn '/' t) (.ok (p, true))) (h : Stays site ws p ns x) :
      Stays site ws q (n :: ns) x
  | badLink {ws : List Place} {q : Place} {n t : Text} {ns : List Text} {b : BadName} (hn : isOwnName n = true)
      (hb : badName? n = none) (hl : site (q ++ [n]) = some (.link t)) (hw : q ++ [n] ∉ ws)
      (ht : Path.isAbsolute t = false) (hin : Stays site ((q ++ [n]) :: ws) q (Text.splitOn '/' t) (.error b)) :
      Stays site ws q (n :: ns) (.error b)
  | back {ws : List Place} {q : Place} {n t : Text} {ns : List Text} (hn : isOwnName n = true)
      (hb : badName? n = none) (hl : site (q ++ [n]) = some (.link t)) (hw : q ++ [n] ∈ ws)
      (hr : ∀ m ms, ns ≠ [] :: m :: ms) : Stays site ws q (n :: ns) (.ok (q ++ [n] ++ ns, false))
  | backLink {ws : List Place} {p q : Place} {n t : Text} {ns : List Text} (hn : isOwnName n = true)
      (hb : badName? n = none) (hl : site (q ++ [n]) = some (.link t)) (hw : q ++ [n] ∉ ws)
      (ht : Path.isAbsolute t = false)
      (hin : Stays site ((q ++ [n]) :: ws) q (Text.splitOn '/' t) (.ok (p, false)))
      (hr : ∀ m ms, ns ≠ [] :: m :: ms) : Stays site ws q (n :: ns) (.ok (p ++ ns, false))

theorem rejoin_of_ne (h : ∀ m ms, ns ≠ [] :: m :: ms) (p : Place) : rejoin p ns = p ++ ns := by
  unfold rejoin
  split
  · exact absurd rfl (h _ _)
  · rfl

/-- What stays on a site is resolved to the same place of it wherever the site is. -/
theorem Stays.resolveFrom {x : Except BadName (Place × Bool)} (h : Stays site ws q ns x)
    (hd : ∀ p, d.entry? (r ++ p) = site p) (hu : Underway d depth (ws.map (r ++ ·))) :
    d.resolveFrom depth (ws.map (r ++ ·)) (r ++ q) ns = x.map fun p => (r ++ p.1, p.2) := by
  have hentry {q : Place} {n : Text} {e : Option Entry} (he : site (q ++ [n]) = e) : d.entry? (r ++ q ++ [n]) = e := by
    rw [List.append_assoc, hd, he]
  have hmem {ws : List Place} {q : Place} {n : Text} : r ++ q ++ [n] ∈ ws.map (r ++ ·) ↔ q ++ [n] ∈ ws := by
    rw [List.append_assoc]
    exact List.mem_map_of_injective fun _ _ h => List.append_cancel_left h
  induction h generalizing depth with
  | here => rw [Disk.resolveFrom]; rfl
  | stay hn _ ih => rw [Disk.resolveFrom, if_pos hn, ih hu]
  | up hq _ ih =>
    rw [Disk.resolveFrom, if_neg (by decide), if_pos rfl, List.dropLast_append_of_ne_nil hq, ih hu]
  | bad hn hb =>
    obtain ⟨hstay, hup⟩ := isOwnName_iff.1 hn
    rw [Disk.resolveFrom, if_neg hstay, if_neg hup, hb]
    rfl
  | @down ws q n ns x hn hb hl _ ih =>
    obtain ⟨hstay, hup⟩ := isOwnName_iff.1 hn
    rw [Disk.resolveFrom, if_neg hstay, if_neg hup, hb]
    dsimp only
    split
    · rename_i t ht
      exact absurd ((hentry rfl).symm.trans ht) (hl t)
    · rw [List.append_assoc]
      exact ih hu
  | @link ws p q n t ns x hn hb hl hw ht _ _ ihin ih =>
    obtain ⟨hstay, hup⟩ := isOwnName_iff.1 hn
    obtain ⟨k, rfl, hu'⟩ := hu.cons (hentry hl) (mt hmem.1 hw)
    have hin := @ihin k (by rwa [List.map_cons, ← List.append_assoc])
    rw [List.map_cons, ← List.append_assoc] at hin
    rw [Disk.resolveFrom, if_neg hstay, if_neg hup, hb]
    simp only [hentry hl, if_neg (mt hmem.1 hw), ht, Bool.false_eq_true, if_false, hin]
    exact ih hu
  | @badLink ws q n t ns b hn hb hl hw ht _ ihin =>
    obtain ⟨hstay, hup⟩ := isOwnName_iff.1 hn
    obtain ⟨k, rfl, hu'⟩ := hu.cons (hentry hl) (mt hmem.1 hw)
    have hin := @ihin k (by rwa [List.map_cons, ← List.append_assoc])
    rw [List.map_cons, ← List.append_assoc] at hin
    rw [Disk.resolveFrom, if_neg hstay, if_neg hup, hb]
    simp only [hentry hl, if_neg (mt hmem.1 hw), ht, Bool.false_eq_true, if_false, hin]
    rfl
  | back hn hb hl hw hr =>
    obtain ⟨hstay, hup⟩ := isOwnName_iff.1 hn
    rw [Disk.resolveFrom, if_neg hstay, if_neg hup, hb]
    simp only [hentry hl, if_pos (hmem.2 hw), rejoin_of_ne hr]
    simp [Except.map]
  | @backLink ws p q n t ns hn hb hl hw ht _ hr ihin =>
    obtain ⟨hstay, hup⟩ := isOwnName_iff.1 hn
    obtain ⟨k, rfl, hu'⟩ := hu.cons (hentry hl) (mt hmem.1 hw)
    have hin := @ihin k (by rwa [List.map_cons, ← List.append_assoc])
    rw [List.map_cons, ← List.append_assoc] at hin
    rw [Disk.resolveFrom, if_neg hstay, if_neg hup, hb]
    simp only [hentry hl, if_neg (mt hmem.1 hw), ht, Bool.false_eq_true, if_false, hin, Except.map, rejoin_of_ne hr]
    rw [List.append_assoc]

/-- Names are followed from a place of a site, up from its root never and over no absolute link, until they lead to
something there or cannot be followed any further. -/
inductive Treads (site : Place → Option Entry) : Nat → Place → List Text → Except Errno Place → Prop
  | here {links : Nat} {q : Place} : Treads site links q [] (.ok q)
  | noDirectory {links : Nat} {q : Place} {n : Text} {ns : List Text} (hd : site q ≠ some .directory) :
      Treads site links q (n :: ns) (.error .notDirectory)
  | stay {links : Nat} {q : Place} {n : Text} {ns : List Text} {x : Except Errno Place} (hd : site q = some .directory)
      (hn : n = [] ∨ n = ".") (h : Treads site links q ns x) : Treads site links q (n :: ns) x
  | up {links : Nat} {q : Place} {ns : List Text} {x : Except Errno Place} (hd : site q = some .directory)
      (hq : q ≠ []) (h : Treads site links q.dropLast ns x) : Treads site links q (".." :: ns) x
  | tooLong {links : Nat} {q : Place} {n : Text} {ns : List Text} (hd : site q = some .directory)
      (hn : isOwnName n = true) (hs : maxName < Text.utf8Size n) :
      Treads site links q (n :: ns) (.error .nameTooLong)
  | missing {links : Nat} {q : Place} {n : Text} {ns : List Text} (hd : site q = some .directory)
      (hn : isOwnName n = true) (hs : Text.utf8Size n ≤ maxName) (he : site (q ++ [n]) = none) :
      Treads site links q (n :: ns) (.error .noEntry)
  | tooMany {q : Place} {n t : Text} {ns : List Text} (hd : site q = some .directory) (hn : isOwnName n = true)
      (hs : Text.utf8Size n ≤ maxName) (he : site (q ++ [n]) = some (.link t)) :
      Treads site 0 q (n :: ns) (.error .tooManyLinks)
  | link {links : Nat} {q : Place} {n t : Text} {ns : List Text} {x : Except Errno Place}
      (hd : site q = some .directory) (hn : isOwnName n = true) (hs : Text.utf8Size n ≤ maxName)
      (he : site (q ++ [n]) = some (.link t)) (ht : Path.isAbsolute t = false)
      (h : Treads site links q (Text.splitOn '/' t ++ ns) x) : Treads site (links + 1) q (n :: ns) x
  | down {links : Nat} {q : Place} {n : Text} {ns : List Text} {e : Entry} {x : Except Errno Place}
      (hd : site q = some .directory) (hn : isOwnName n = true) (hs : Text.utf8Size n ≤ maxName)
      (he : site (q ++ [n]) = some e) (hl : ∀ t, e ≠ .link t) (h : Treads site links (q ++ [n]) ns x) :
      Treads site links q (n :: ns) x

/-- What is followed on a site leads to the same place of it wherever the site is. -/
theorem Treads.follow {x : Except Errno Place} (h : Treads site links q ns x) (hd : ∀ p, d.entry? (r ++ p) = site p) :
    d.follow links (r ++ q) ns = x.map (r ++ ·) := by
  have hdir {q : Place} (h : site q = some .directory) : ¬ d.entry? (r ++ q) ≠ some .directory :=
    not_not.2 ((hd q).trans h)
  have hentry {q : Place} {n : Text} {e : Option Entry} (he : site (q ++ [n]) = e) : d.entry? (r ++ q ++ [n]) = e := by
    rw [List.append_assoc, hd, he]
  induction h with
  | here => rw [Disk.follow]; rfl
  | noDirectory hq => rw [Disk.follow, if_pos (by rwa [hd])]; rfl
  | stay hq hn _ ih => rw [Disk.follow, if_neg (hdir hq), if_pos hn, ih]
  | up hq hne _ ih =>
    rw [Disk.follow, if_neg (hdir hq), if_neg (by decide), if_pos rfl, List.dropLast_append_of_ne_nil hne, ih]
  | tooLong hq hn hs =>
    obtain ⟨hstay, hup⟩ := isOwnName_iff.1 hn
    rw [Disk.follow, if_neg (hdir hq), if_neg hstay, if_neg hup, if_pos hs]
    rfl
  | missing hq hn hs he =>
    obtain ⟨hstay, hup⟩ := isOwnName_iff.1 hn
    rw [Disk.follow, if_neg (hdir hq), if_neg hstay, if_neg hup, if_neg (Nat.not_lt.2 hs), hentry he]
    rfl
  | tooMany hq hn hs he =>
    obtain ⟨hstay, hup⟩ := isOwnName_iff.1 hn
    rw [Disk.follow, if_neg (hdir hq), if_neg hstay, if_neg hup, if_neg (Nat.not_lt.2 hs), hentry he]
    rfl
  | link hq hn hs he ht _ ih =>
    obtain ⟨hstay, hup⟩ := isOwnName_iff.1 hn
    rw [Disk.follow, if_neg (hdir hq), if_neg hstay, if_neg hup, if_neg (Nat.not_lt.2 hs), hentry he]
    simp only [ht, Bool.false_eq_true, if_false, ih]
  | @down _ _ _ _ e _ hq hn hs he hl _ ih =>
    obtain ⟨hstay, hup⟩ := isOwnName_iff.1 hn
    rw [Disk.follow, if_neg (hdir hq), if_neg hstay, if_neg hup, if_neg (Nat.not_lt.2 hs), hentry he]
    cases e with
    | link t => exact absurd rfl (hl t)
    | file content modified => rw [← ih, List.append_assoc]
    | directory => rw [← ih, List.append_assoc]

/-- Where no link stands names can be followed on the site as far as they lead. -/
theorem exists_treads (hn : ∀ n ∈ ns, isOwnName n = true) (hl : ∀ p t, p <+: q ++ ns → site p ≠ some (.link t))
    (links : Nat) : ∃ x, Treads site links q ns x := by
  induction ns generalizing q with
  | nil => exact ⟨_, .here⟩
  | cons n ns ih =>
    obtain ⟨hown, hns⟩ := List.forall_mem_cons.1 hn
    by_cases hd : site q = some .directory
    · by_cases hs : Text.utf8Size n ≤ maxName
      · cases he : site (q ++ [n]) with
        | none => exact ⟨_, .missing hd hown hs he⟩
        | some e =>
          have hlink (t : Text) : e ≠ .link t := fun ht =>
            hl (q ++ [n]) t (by simp [List.prefix_append_right_inj]) (he.trans (congrArg some ht))
          obtain ⟨x, hx⟩ := ih (q := q ++ [n]) hns fun p t hp => hl p t (by simpa using hp)
          exact ⟨x, .down hd hown hs he hlink hx⟩
      · exact ⟨_, .tooLong hd hown (Nat.not_le.1 hs)⟩
    · exact ⟨_, .noDirectory hd⟩

/-- Names of directories that are there lead down to them, whatever comes after. -/
theorem follow_append_of_directories (hup : (".." : Text) ∉ ns)
    (hs : ∀ n ∈ ns, isOwnName n = true → Text.utf8Size n ≤ maxName)
    (hd : ∀ q, a <+: q → q <+: a ++ ns.filter isOwnName → d.entry? q = some .directory) (ms : List Text) :
    d.follow links a (ns ++ ms) = d.follow links (a ++ ns.filter isOwnName) ms := by
  induction ns generalizing a with
  | nil => simp
  | cons n ns ih =>
    obtain ⟨hn, hns⟩ := List.forall_mem_cons.1 hs
    obtain ⟨hne, hup'⟩ := not_or.1 (mt List.mem_cons.2 hup)
    have ha := not_not.2 (hd a (List.prefix_refl a) (List.prefix_append a _))
    rw [List.cons_append, Disk.follow, if_neg ha]
    by_cases hstay : n = [] ∨ n = "."
    · have hown : ¬ isOwnName n = true := fun hown => (isOwnName_iff.1 hown).1 hstay
      rw [List.filter_cons_of_neg hown] at hd ⊢
      rw [if_pos hstay, ih hup' hns hd]
    · have hown : isOwnName n = true := isOwnName_iff.2 ⟨hstay, Ne.symm hne⟩
      rw [List.filter_cons_of_pos hown] at hd ⊢
      have he := hd _ (List.prefix_append a [n]) (by simp [List.prefix_append_right_inj])
      rw [if_neg hstay, if_neg (Ne.symm hne), if_neg (Nat.not_lt.2 (hn hown)), he]
      rw [ih hup' hns fun q hq hq' => hd q ((List.prefix_append a [n]).trans hq) (by simpa using hq'), List.append_assoc,
        List.singleton_append]

theorem resolveFrom_append_of_linkless (hup : (".." : Text) ∉ ns) (hb : ∀ n ∈ ns, badName? n = none)
    (hl : Linkless d (a ++ ns.filter isOwnName)) (ms : List Text) :
    d.resolveFrom depth ws a (ns ++ ms) = d.resolveFrom depth ws (a ++ ns.filter isOwnName) ms := by
  induction ns generalizing a with
  | nil => simp
  | cons n ns ih =>
    obtain ⟨hn, hns⟩ := List.forall_mem_cons.1 hb
    obtain ⟨hne, hup'⟩ := not_or.1 (mt List.mem_cons.2 hup)
    rw [List.cons_append, Disk.resolveFrom]
    by_cases hstay : n = [] ∨ n = "."
    · have hown : ¬ isOwnName n = true := fun hown => (isOwnName_iff.1 hown).1 hstay
      rw [List.filter_cons_of_neg hown] at hl ⊢
      rw [if_pos hstay, ih hup' hns hl]
    · have hown : isOwnName n = true := isOwnName_iff.2 ⟨hstay, Ne.symm hne⟩
      have hcut : a ++ n :: ns.filter isOwnName = a ++ [n] ++ ns.filter isOwnName := by simp
      rw [List.filter_cons_of_pos hown, hcut] at hl ⊢
      rw [if_neg hstay, if_neg (Ne.symm hne), hn]
      dsimp only
      split
      · rename_i t ht
        exact absurd ht (hl _ t (List.prefix_append _ _))
      · exact ih hup' hns hl

/-- A site stands on a disk: its root's path means a directory that is reached by names alone, and below it is the
site. -/
structure Hosts (site : Place → Option Entry) (d : Disk) (root : Text) (r : Place) : Prop where
  resolve : d.resolve root = .ok r
  directory : ∀ q, q <+: r → d.entry? q = some .directory
  named : ∀ n ∈ r, badName? n = none ∧ Text.utf8Size n ≤ maxName
  entry : ∀ q, d.entry? (r ++ q) = site q

namespace Hosts

variable (h : Hosts site d root r)
include h

theorem plain : Plain r := plain_of_resolve h.resolve

theorem linkless : Linkless d r := fun q t hq ht => by simp [h.directory q hq] at ht

theorem settled : Settled d r := ⟨h.linkless, fun n hn => (h.plain n hn).1⟩

/-- A file's path is resolved from the root on. -/
theorem resolve_join (hf : Path.isAbsolute file = false) : d.resolve (Path.join (pathOf r) file) =
    (d.resolveFrom d.entries.entries.length [] r (Text.splitOn '/' file)).map fun p => Path.follow true [] p.1 := by
  obtain ⟨front, hjoin, hfront⟩ := Path.exists_splitOn_join (pathOf r) hf
  have hroot : (Text.splitOn '/' (pathOf r)).filter isOwnName = r ∧
      ∀ n ∈ Text.splitOn '/' (pathOf r), n ∈ r ∨ n = [] := by
    by_cases hr : r = []
    · subst hr
      exact ⟨rfl, fun n hn => .inr (by simpa [pathOf, Text.joinWith, Text.splitOn, Text.splitWhen] using hn)⟩
    · rw [splitOn_pathOf hr h.plain, List.filter_cons_of_neg (by decide), h.plain.filter_eq]
      exact ⟨rfl, fun n hn => (List.mem_cons.1 hn).symm⟩
  have hnames : front.filter isOwnName = r ∧ ∀ n ∈ front, n ∈ r ∨ n = [] := by
    rcases hfront with rfl | hfront
    · exact hroot
    · have hnil : [([] : Text)].filter isOwnName = [] := rfl
      rw [← hfront, List.filter_append, hnil, List.append_nil] at hroot
      exact ⟨hroot.1, fun n hn => hroot.2 n (List.mem_append_left _ hn)⟩
  have hup : (".." : Text) ∉ front := fun hm => (hnames.2 _ hm).elim h.plain.not_mem_up (by decide)
  have hbad : ∀ n ∈ front, badName? n = none := fun n hn =>
    (hnames.2 n hn).elim (fun hn => (h.named n hn).1) fun hn => hn ▸ rfl
  have hl : Linkless d ([] ++ front.filter isOwnName) := by
    rw [hnames.1]
    exact h.linkless
  rw [Disk.resolve, hjoin, resolveFrom_append_of_linkless hup hbad hl, hnames.1, List.nil_append]

/-- Names from the root on are followed from there. -/
theorem find_pathOf_append (hq : Plain q) : d.find (pathOf (r ++ q)) = d.follow maxLinks r q := by
  have hplain : Plain (r ++ q) := fun n hn => (List.mem_append.1 hn).elim (h.plain n) (hq n)
  by_cases hnil : r ++ q = []
  · obtain ⟨rfl, rfl⟩ := List.append_eq_nil_iff.1 hnil
    have hs : Text.splitOn '/' (pathOf []) = [[], []] := rfl
    simp [find, hs, Disk.follow, entry?]
  · have hroot : ([] :: r).filter isOwnName = r := by rw [List.filter_cons_of_neg (by decide), h.plain.filter_eq]
    have hway : d.follow maxLinks [] ([] :: r ++ q) = d.follow maxLinks ([] ++ ([] :: r).filter isOwnName) q :=
      follow_append_of_directories (mt List.mem_cons.1 (not_or.2 ⟨by decide, h.plain.not_mem_up⟩))
        (List.forall_mem_cons.2 ⟨fun hn => absurd hn (by decide), fun n hn _ => (h.named n hn).2⟩)
        (fun p _ hp => h.directory p (by rwa [hroot] at hp)) q
    rw [hroot, List.cons_append] at hway
    rw [find, splitOn_pathOf hnil hplain, hway, List.nil_append]

end Hosts

/-- What is opened on a site where following a path came to an end. -/
def opened (site : Place → Option Entry) : Except Errno Place → Except Errno (Bytes × Int)
  | .error e => .error e
  | .ok p => match site p with
    | some (.file content modified) => .ok (content, modified)
    | some .directory => .error .isDirectory
    | _ => .error .noEntry

theorem Hosts.open?_pathOf (h : Hosts site d root r) (hq : Plain q) {x : Except Errno Place}
    (hx : Treads site maxLinks [] q x) : d.open? (pathOf (r ++ q)) = opened site x := by
  have hfollow := hx.follow h.entry
  rw [List.append_nil] at hfollow
  rw [open?, h.find_pathOf_append hq, hfollow]
  cases x with
  | error e => rfl
  | ok p =>
    have hentry := h.entry p
    cases hs : site p with
    | none => simp only [Except.map, opened, hentry, hs]
    | some e => cases e <;> simp only [Except.map, opened, hentry, hs]

/-- The path of a file stays on a site, in resolving it and in opening what it is resolved to. -/
inductive StaysOn (site : Place → Option Entry) (file : Text) : Prop
  | unnamed {b : BadName} (h : Stays site [] [] (Text.splitOn '/' file) (.error b))
  | settled {p : Place} (h : Stays site [] [] (Text.splitOn '/' file) (.ok (p, true)))
  | circling {p : Place} {x : Except Errno Place} (h : Stays site [] [] (Text.splitOn '/' file) (.ok (p, false)))
      (hup : (".." : Text) ∉ Path.follow false [] p) (hx : Treads site maxLinks [] (Path.follow false [] p) x)

/-- A file whose path stays on a site means one place of it, and can be followed there, wherever the site is. -/
theorem StaysOn.exists_resolve (hs : StaysOn site file) (hf : Path.isAbsolute file = false) :
    ∃ y : Except BadName Place, ∀ {d : Disk} {root : Text} {r : Place}, Hosts site d root r →
      d.resolve (Path.join (pathOf r) file) = y.map (r ++ ·) ∧
        ∀ q, y = .ok q → ∃ x, Treads site maxLinks [] q x := by
  have resolve {d : Disk} {root : Text} {r : Place} (h : Hosts site d root r) {x : Except BadName (Place × Bool)}
      (hx : Stays site [] [] (Text.splitOn '/' file) x) :
      d.resolveFrom d.entries.entries.length [] r (Text.splitOn '/' file) = x.map fun p => (r ++ p.1, p.2) := by
    have hu : Underway d d.entries.entries.length ([].map (r ++ ·)) :=
      ⟨List.nodup_nil, by simp, Nat.le_add_right _ _⟩
    have := hx.resolveFrom h.entry hu
    rwa [List.map_nil, List.append_nil] at this
  cases hs with
  | @unnamed b hx =>
    refine ⟨.error b, fun {d root r} h => ⟨?_, nofun⟩⟩
    rw [h.resolve_join hf, resolve h hx]
    rfl
  | @settled p hx =>
    refine ⟨.ok p, fun {d root r} h => ?_⟩
    have hr := resolve h hx
    obtain ⟨hl, hown⟩ := h.settled.resolveFrom hr
    have hup : (".." : Text) ∉ r ++ p := fun hm => absurd (hown _ hm) (by decide)
    refine ⟨?_, fun q hq => ?_⟩
    · rw [h.resolve_join hf, hr]
      simp only [Except.map, Path.follow_of_not_mem hup, List.reverse_nil, List.nil_append,
        List.filter_eq_self.2 hown]
    · obtain rfl := Except.ok.inj hq
      refine exists_treads (fun n hn => hown n (List.mem_append_right r hn)) (fun q t hq ht => ?_) maxLinks
      exact hl (r ++ q) t ((List.prefix_append_right_inj r).2 hq) ((h.entry q).trans ht)
  | @circling p x hx hup ht =>
    refine ⟨.ok (Path.follow false [] p), fun {d root r} h => ⟨?_, ?_⟩⟩
    · rw [h.resolve_join hf, resolve h hx]
      simp only [Except.map]
      rw [Path.follow_append_of_isOwnName (fun n hn => (h.plain n hn).1), List.append_nil, ← List.nil_append r.reverse,
        Path.follow_append hup, List.reverse_reverse]
    · rintro q hq
      obtain rfl := Except.ok.inj hq
      exact ⟨x, ht⟩

end Disk

namespace Site

open Disk (Hosts StaysOn)

variable {site : Place → Option Entry} {d d' : Disk} {root root' file : Text} {r r' : Place} {size : Nat}
  {locked : Text → Bool}

/-- A file whose path stays on a site is read alike wherever the site is. -/
theorem read_relocated (h : Hosts site d root r) (h' : Hosts site d' root' r') (hs : StaysOn site file)
    (hf : Path.isAbsolute file = false) : read ⟨root', size⟩ locked d' file = read ⟨root, size⟩ locked d file := by
  obtain ⟨y, hy⟩ := hs.exists_resolve hf
  obtain ⟨hr, ht⟩ := hy h
  obtain ⟨hr', -⟩ := hy h'
  unfold read locate
  by_cases hi : file = SourceKey.inline
  · simp only [if_pos hi]
  · simp only [if_neg hi, h.resolve, h'.resolve, hr, hr']
    cases y with
    | error b => rfl
    | ok q =>
      obtain ⟨x, hx⟩ := ht q rfl
      have hq : Disk.Plain q := (Disk.plain_of_resolve hr).of_append_right
      have hb (r : Place) : Disk.isBelow r (r ++ q) = true := Disk.isBelow_iff.2 (List.prefix_append r q)
      have ho := h.open?_pathOf hq hx
      have ho' := h'.open?_pathOf hq hx
      have hfile : d'.isFile (Disk.pathOf (r' ++ q)) = d.isFile (Disk.pathOf (r ++ q)) := by
        rw [Bool.eq_iff_iff, Disk.isFile_iff, Disk.isFile_iff, ho, ho']
      simp only [Except.map, hb, hfile, Bool.not_true, Bool.false_eq_true, if_false]
      by_cases hm : (!d.isFile (Disk.pathOf (r ++ q))) = true
      · simp only [if_pos hm]
      · simp only [if_neg hm, ho, ho']

end Site
end StylePrune
