import Mathlib.Data.List.Chain
import Mathlib.Logic.Relation
import StylePrune.Proofs.Disk.Settling
import StylePrune.Proofs.Site
import StylePrune.Proofs.Table

/-!
How far the path of a stylesheet goes down. Where the links of a site form no circle, who goes down by names comes from
directory to directory and never to the same one twice, so there are no more names than the disk has directories.
-/

set_option autoImplicit false

namespace StylePrune

namespace Disk

variable {d : Disk} {depth : Nat} {active : List Place} {a p q : Place} {n last : Text} {ns ms : List Text}

/-- A name leads from a place to a directory, maybe through links. -/
def Enters (d : Disk) (p q : Place) : Prop :=
  d.entry? q = some .directory ∧
    ∃ n, isOwnName n = true ∧ d.resolveFrom d.entries.entries.length [] p [n] = .ok (q, true)

theorem exists_of_resolveFrom_append (h : d.resolveFrom depth active a (ns ++ ms) = .ok (p, true)) :
    ∃ q, d.resolveFrom depth active a ns = .ok (q, true) ∧ d.resolveFrom depth active q ms = .ok (p, true) := by
  fun_induction resolveFrom d depth active a ns with
  | case1 => exact ⟨_, rfl, h⟩
  | case2 depth active a n ns hn ih =>
    rw [List.cons_append, resolveFrom, if_pos hn] at h
    exact ih h
  | case3 depth active a ns hn ih =>
    rw [List.cons_append, resolveFrom, if_neg hn, if_pos rfl] at h
    exact ih h
  | case4 depth active a n ns hn hup b hb =>
    rw [List.cons_append, resolveFrom, if_neg hn, if_neg hup, hb] at h
    cases h
  | case5 depth active a n ns hn hup hb t ht hm =>
    rw [List.cons_append, resolveFrom, if_neg hn, if_neg hup, hb] at h
    simp [ht, hm] at h
  | case6 active a n ns hn hup hb t ht hm =>
    rw [List.cons_append, resolveFrom, if_neg hn, if_neg hup, hb] at h
    simp [ht, hm] at h
  | case7 active a n ns hn hup hb t ht hm depth e he ih =>
    rw [List.cons_append, resolveFrom, if_neg hn, if_neg hup, hb] at h
    simp only [dite_eq_ite] at he
    simp [ht, hm, he] at h
  | case8 active a n ns hn hup hb t ht hm depth q hq ih ih' =>
    rw [List.cons_append, resolveFrom, if_neg hn, if_neg hup, hb] at h
    simp only [dite_eq_ite] at hq
    simp only [ht, if_neg hm, hq] at h
    exact ih' h
  | case9 active a n ns hn hup hb t ht hm depth q hq ih =>
    rw [List.cons_append, resolveFrom, if_neg hn, if_neg hup, hb] at h
    simp only [dite_eq_ite] at hq
    simp [ht, hm, hq] at h
  | case10 depth active a n ns hn hup hb hl ih =>
    rw [List.cons_append, resolveFrom, if_neg hn, if_neg hup, hb] at h
    simp only at h
    exact ih h

theorem Rooted.entry?_eq_none (hr : Rooted d) (hq : d.entry? q ≠ some .directory) (hn : ns ≠ []) :
    d.entry? (q ++ ns) = none := by
  by_contra he
  exact hq (hr.isDirectory (Option.isSome_iff_ne_none.2 he) (List.prefix_append q ns) (by simp [hn]))

/-- Below what is no directory names are only strung together. -/
theorem Rooted.eq_append_of_resolveFrom (hr : Rooted d) (hq : d.entry? q ≠ some .directory)
    (hn : ∀ n ∈ ns, isOwnName n = true) {r : Place × Bool} (h : d.resolveFrom depth active q ns = .ok r) :
    r = (q ++ ns, true) := by
  induction ns generalizing q with
  | nil =>
    rw [resolveFrom] at h
    simpa using (Except.ok.inj h).symm
  | cons n ns ih =>
    obtain ⟨hown, hns⟩ := List.forall_mem_cons.1 hn
    obtain ⟨hstay, hup⟩ := isOwnName_iff.1 hown
    have hnone : d.entry? (q ++ [n]) = none := hr.entry?_eq_none hq (List.cons_ne_nil n [])
    rw [resolveFrom, if_neg hstay, if_neg hup] at h
    cases hb : badName? n with
    | some b =>
      rw [hb] at h
      cases h
    | none =>
      simp only [hb, hnone] at h
      have := ih (by simp [hnone]) hns h
      rwa [List.append_assoc, List.singleton_append] at this

/-- What is no directory leads to nothing by two names or more, however the last step goes. -/
theorem Rooted.entry?_of_resolveFrom (hr : Rooted d) (hq : d.entry? q ≠ some .directory)
    (hn : ∀ n ∈ ns, isOwnName n = true) (hlen : 2 ≤ ns.length)
    (h : d.resolveFrom depth active q (ns ++ [last]) = .ok (p, true)) : d.entry? p = none := by
  have hne : ns ≠ [] := by
    rintro rfl
    simp at hlen
  obtain ⟨q', hq', hlast⟩ := exists_of_resolveFrom_append h
  obtain ⟨rfl, -⟩ := Prod.mk.inj (hr.eq_append_of_resolveFrom hq hn hq')
  by_cases hown : isOwnName last = true
  · have hall : ∀ n ∈ ns ++ [last], isOwnName n = true := List.forall_mem_append.2 ⟨hn, List.forall_mem_singleton.2 hown⟩
    obtain ⟨rfl, -⟩ := Prod.mk.inj (hr.eq_append_of_resolveFrom hq hall h)
    exact hr.entry?_eq_none hq (by simp)
  · rw [resolveFrom] at hlast
    by_cases hstay : last = [] ∨ last = "."
    · rw [if_pos hstay, resolveFrom] at hlast
      obtain ⟨rfl, -⟩ := Prod.mk.inj (Except.ok.inj hlast)
      exact hr.entry?_eq_none hq hne
    · have hup : last = ".." := by
        by_contra hup
        exact hown (isOwnName_iff.2 ⟨hstay, hup⟩)
      rw [if_neg hstay, if_pos hup, resolveFrom] at hlast
      obtain ⟨rfl, -⟩ := Prod.mk.inj (Except.ok.inj hlast)
      rw [List.dropLast_append_of_ne_nil hne]
      refine hr.entry?_eq_none hq fun hnil => ?_
      have hzero := congrArg List.length hnil
      rw [List.length_dropLast, List.length_nil] at hzero
      omega

/-- The directories on the way down to something, the last two steps left out. -/
theorem Rooted.exists_isChain (hr : Rooted d) (hp : d.entry? p ≠ none) (hn : ∀ n ∈ ns, isOwnName n = true)
    (h : d.resolveFrom d.entries.entries.length [] a (ns ++ [last]) = .ok (p, true)) :
    ∃ ds : List Place, ns.length ≤ ds.length + 2 ∧ (a :: ds).IsChain d.Enters := by
  induction ns generalizing a with
  | nil => exact ⟨[], by simp, by simp⟩
  | cons n ns ih =>
    by_cases hlen : 2 ≤ ns.length
    · obtain ⟨hown, hns⟩ := List.forall_mem_cons.1 hn
      have hcut : n :: ns ++ [last] = [n] ++ (ns ++ [last]) := rfl
      rw [hcut] at h
      obtain ⟨q, hq, hrest⟩ := exists_of_resolveFrom_append h
      have hdir : d.entry? q = some .directory := by
        by_contra hq'
        exact hp (hr.entry?_of_resolveFrom hq' hns hlen hrest)
      obtain ⟨ds, hds, hchain⟩ := ih hns hrest
      refine ⟨q :: ds, ?_, .cons_cons ⟨hdir, n, hown, hq⟩ hchain⟩
      simp only [List.length_cons]
      omega
    · refine ⟨[], ?_, by simp⟩
      simp only [List.length_cons, List.length_nil]
      omega

theorem mem_keys_of_directory (h : d.entry? p = some .directory) : p ∈ ([] : Place) :: d.entries.keys := by
  by_cases hp : p = []
  · exact hp ▸ List.mem_cons_self
  · rw [ entry?, if_neg hp] at h
    exact List.mem_cons_of_mem _ (List.mem_map_of_mem (Table.mem_of_get? h))

/-- Where no link stands on the way names lead where they say. -/
theorem eq_append_of_linkless (hup : (".." : Text) ∉ ns) (hl : Linkless d (a ++ ns.filter isOwnName))
    (h : d.resolveFrom depth active a ns = .ok (q, true)) : q = a ++ ns.filter isOwnName := by
  induction ns generalizing a with
  | nil =>
    rw [resolveFrom] at h
    rw [List.filter_nil, List.append_nil, (Prod.mk.inj (Except.ok.inj h)).1]
  | cons n ns ih =>
    obtain ⟨hn, hns⟩ := not_or.1 (mt List.mem_cons.2 hup)
    rw [resolveFrom] at h
    by_cases hstay : n = [] ∨ n = "."
    · have hown : ¬ isOwnName n = true := fun hown => (isOwnName_iff.1 hown).1 hstay
      rw [if_pos hstay] at h
      rw [List.filter_cons_of_neg hown] at hl ⊢
      exact ih hns hl h
    · have hown : isOwnName n = true := isOwnName_iff.2 ⟨hstay, Ne.symm hn⟩
      rw [List.filter_cons_of_pos hown, ← List.singleton_append, ← List.append_assoc] at hl ⊢
      rw [if_neg hstay, if_neg (Ne.symm hn)] at h
      cases hb : badName? n with
      | some b =>
        rw [hb] at h
        cases h
      | none =>
        have hlink (t : Text) : d.entry? (a ++ [n]) ≠ some (.link t) := hl _ t (List.prefix_append _ _)
        simp only [hb] at h
        exact ih hns hl h

theorem Unlinked.settled (hl : Unlinked d) {r : Place × Bool} (h : d.resolveFrom depth active a ns = .ok r) :
    r = (r.1, true) := by
  induction ns generalizing a with
  | nil =>
    rw [Disk.resolveFrom] at h
    rw [← Except.ok.inj h]
  | cons n ns ih =>
    rw [Disk.resolveFrom] at h
    split at h
    · exact ih h
    · split at h
      · exact ih h
      · split at h
        · cases h
        · split at h
          · rename_i t ht
            exact absurd ht (hl _ t)
          · exact ih h

/-- Without links each step down is one name longer. -/
theorem Unlinked.length_lt (hl : Unlinked d) (h : d.Enters p q) : p.length < q.length := by
  obtain ⟨-, n, hown, hq⟩ := h
  have hup : (".." : Text) ∉ [n] := fun hm => absurd (List.mem_singleton.1 hm ▸ hown) (by decide)
  have hsame := eq_append_of_linkless hup (fun r t _ => hl r t) hq
  rw [List.filter_cons_of_pos hown, List.filter_nil] at hsame
  simp [hsame]

/-- No more directories are entered one after another than there are. -/
theorem length_le_of_isChain (hacyclic : ∀ p, Relation.ReflTransGen d.Enters a p → ¬ Relation.TransGen d.Enters p p)
    {ds : List Place} (h : (a :: ds).IsChain d.Enters) : ds.length ≤ d.entries.entries.length + 1 := by
  have htrans : (a :: ds).IsChain (Relation.TransGen d.Enters) := h.imp fun _ _ => .single
  have hpair := List.isChain_iff_pairwise.1 htrans
  obtain ⟨hfirst, hrest⟩ := List.pairwise_cons.1 hpair
  have hnodup : ds.Nodup := by
    refine (hrest.imp_of_mem fun {p q} hp _ hpq => ?_)
    rintro rfl
    exact hacyclic p (hfirst p hp).to_reflTransGen hpq
  have hdir : ∀ p ∈ ds, d.entry? p = some .directory := by
    intro p hp
    obtain ⟨q, -, hq⟩ := Relation.TransGen.tail'_iff.1 (hfirst p hp)
    exact hq.1
  have hsub := hnodup.subperm fun p hp => mem_keys_of_directory (hdir p hp)
  simpa [Table.keys] using hsub.length_le

end Disk

namespace Site

variable {s : Site} {d : Disk} {file : Text} {root place : Place}

/-- Links of the site form no circle: on the way to a file of it none leads back to itself, and who goes down from its
root, or from the directory that holds it, never comes to a directory again. -/
structure Unfolds (s : Site) (d : Disk) : Prop where
  settles : ∀ root file place, d.resolve s.root = .ok root → locate s d file = .ok place →
    d.Settles (Path.join (Disk.pathOf root) file)
  acyclic : ∀ root p, d.resolve s.root = .ok root →
    Relation.ReflTransGen d.Enters root p ∨ Relation.ReflTransGen d.Enters root.dropLast p →
    ¬ Relation.TransGen d.Enters p p

/-- The names behind the root, followed from there. -/
theorem exists_resolveFrom_of_locate (hu : s.Unfolds d) (h : locate s d file = .ok place)
    (habs : Path.isAbsolute file = false) : ∃ root, d.resolve s.root = .ok root ∧
      d.resolveFrom d.entries.entries.length [] root (Text.splitOn '/' file) = .ok (place, true) := by
  obtain ⟨-, root, hroot, hplace, hbelow, -⟩ := locate_eq_ok h
  have hsettles := hu.settles _ _ _ hroot h
  have hplain := Disk.plain_of_resolve hroot
  obtain ⟨front, hjoin, hfront⟩ := Path.exists_splitOn_join (Disk.pathOf root) habs
  have hnames : front.filter Disk.isOwnName = root ∧ (".." : Text) ∉ front := by
    have hsplit : (Text.splitOn '/' (Disk.pathOf root)).filter Disk.isOwnName = root ∧
        (".." : Text) ∉ Text.splitOn '/' (Disk.pathOf root) := by
      by_cases hnil : root = []
      · subst hnil
        exact ⟨rfl, by decide⟩
      · rw [Disk.splitOn_pathOf hnil hplain, List.filter_cons_of_neg (by decide), hplain.filter_eq]
        exact ⟨rfl, mt List.mem_cons.1 (not_or.2 ⟨by decide, hplain.not_mem_up⟩)⟩
    rcases hfront with rfl | hend
    · exact hsplit
    · have hnil : ([[]] : List Text).filter Disk.isOwnName = [] := rfl
      rw [← hend, List.filter_append, hnil, List.append_nil, List.mem_append, not_or] at hsplit
      exact ⟨hsplit.1, hsplit.2.1⟩
  have hway := hsettles.resolveFrom_eq hplace
  rw [hjoin] at hway
  obtain ⟨q, hq, hdown⟩ := Disk.exists_of_resolveFrom_append hway
  have hlinkless : Disk.Linkless d root := fun q t hq =>
    hsettles.linkless hplace q t (hq.trans (Disk.isBelow_iff.1 hbelow))
  have hsame : q = root := by
    have := Disk.eq_append_of_linkless hnames.2 (by rwa [hnames.1]) hq
    rwa [hnames.1] at this
  exact ⟨root, hroot, hsame ▸ hdown⟩

/-- The names of a stylesheet's key are few if they go down, the first and the last of them apart. -/
theorem length_le_of_locate (hr : d.Rooted) (hu : s.Unfolds d) (h : locate s d file = .ok place)
    (habs : Path.isAbsolute file = false)
    (hn : ∀ n ∈ (Text.splitOn '/' file).tail.dropLast, Disk.isOwnName n = true) :
    (Text.splitOn '/' file).length ≤ d.entries.entries.length + 5 := by
  obtain ⟨root, hroot, hway⟩ := exists_resolveFrom_of_locate hu h habs
  obtain ⟨-, root', hroot', hplace, -, hfile⟩ := locate_eq_ok h
  obtain rfl := Except.ok.inj (hroot.symm.trans hroot')
  obtain ⟨f, hf⟩ := Disk.isFile_iff.1 hfile
  obtain ⟨q, hq, he⟩ := Disk.open?_eq_ok_iff.1 hf
  obtain rfl := Disk.find_pathOf (Disk.plain_of_resolve hplace)
    ((hu.settles _ _ _ hroot h).linkless hplace) hq
  cases hs : Text.splitOn '/' file with
  | nil => simp
  | cons first rest =>
    rw [hs, List.tail_cons] at hn
    obtain rfl | ⟨mids, last, rfl⟩ := List.eq_nil_or_concat rest
    · simp
    · rw [List.concat_eq_append] at *
      rw [List.dropLast_concat] at hn
      have hcut : first :: (mids ++ [last]) = [first] ++ (mids ++ [last]) := rfl
      rw [hs, hcut] at hway
      obtain ⟨a, hfirst, hdown⟩ := Disk.exists_of_resolveFrom_append hway
      simp only [List.length_cons, List.length_append, List.length_nil]
      by_cases hmids : 2 ≤ mids.length
      · have hdir : d.entry? a = some .directory := by
          by_contra hnot
          have := hr.entry?_of_resolveFrom hnot hn hmids hdown
          rw [this] at he
          cases he
        have hacyclic (p : Place) (hp : Relation.ReflTransGen d.Enters a p) : ¬ Relation.TransGen d.Enters p p := by
          refine hu.acyclic root p hroot ?_
          by_cases hown : Disk.isOwnName first = true
          · exact .inl (hp.head ⟨hdir, first, hown, hfirst⟩)
          · rw [Disk.resolveFrom] at hfirst
            by_cases hstay : first = [] ∨ first = "."
            · rw [if_pos hstay, Disk.resolveFrom] at hfirst
              obtain ⟨rfl, -⟩ := Prod.mk.inj (Except.ok.inj hfirst)
              exact .inl hp
            · have hup : first = ".." := by
                by_contra hup
                exact hown (Disk.isOwnName_iff.2 ⟨hstay, hup⟩)
              rw [if_neg hstay, if_pos hup, Disk.resolveFrom] at hfirst
              obtain ⟨rfl, -⟩ := Prod.mk.inj (Except.ok.inj hfirst)
              exact .inr hp
        obtain ⟨ds, hlen, hchain⟩ := hr.exists_isChain (by simp [he]) hn hdown
        have hds := Disk.length_le_of_isChain hacyclic hchain
        omega
      · omega

/-- Without links there is no circle. -/
theorem unfolds_of_unlinked (hl : d.Unlinked) : s.Unfolds d where
  settles root file place hroot h := by
    obtain ⟨-, root', hroot', hplace, -⟩ := locate_eq_ok h
    obtain rfl := Except.ok.inj (hroot.symm.trans hroot')
    obtain ⟨r, hr, -⟩ := Disk.resolve_eq_ok hplace
    exact ⟨r.1, hl.settled hr ▸ hr⟩
  acyclic root p _ _ hp := by
    have hlt {p q : Place} (h : Relation.TransGen d.Enters p q) : p.length < q.length := by
      induction h with
      | single h => exact hl.length_lt h
      | tail _ h ih => exact ih.trans (hl.length_lt h)
    exact lt_irrefl _ (hlt hp)

end Site
end StylePrune
