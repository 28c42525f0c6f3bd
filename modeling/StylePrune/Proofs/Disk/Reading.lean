import StylePrune.Proofs.Disk.Straight
import StylePrune.Proofs.Table

/-!
What is read where no link stands. On a disk on which every entry stands in a directory such a file is found by its
own names, and on any later disk too, unless a file came upon it; nor does one come to be found that was not.
-/

set_option autoImplicit false

namespace StylePrune.Disk

variable {d d' : Disk} {links : Nat} {a p q : Place} {ns : List Text} {made written : Place → Prop}

/-- Every entry stands in a directory. -/
def Rooted (d : Disk) : Prop := ∀ p n, (d.entry? (p ++ [n])).isSome → d.entry? p = some .directory

/-- No link stands at a place or above it. -/
def Linkless (d : Disk) (p : Place) : Prop := ∀ q t, q <+: p → d.entry? q ≠ some (.link t)

theorem rooted_of_entries (h : ∀ e ∈ d.entries.entries, d.entry? e.1.dropLast = some .directory) : Rooted d := by
  intro p n hp
  obtain ⟨e, he⟩ := Option.isSome_iff_exists.1 hp
  rw [ entry?, if_neg (by simp)] at he
  have hparent := h _ (Table.mem_of_get? he)
  rwa [List.dropLast_concat] at hparent

theorem Rooted.isDirectory (hr : Rooted d) (hp : (d.entry? p).isSome) (hq : q <+: p) (hne : q ≠ p) :
    d.entry? q = some .directory := by
  obtain ⟨ms, rfl⟩ := hq
  induction ms using List.reverseRecOn with
  | nil => simp at hne
  | append_singleton ms n ih =>
    rw [← List.append_assoc] at hp
    have hms := hr _ _ hp
    by_cases hm : ms = []
    · rwa [hm, List.append_nil] at hms
    · exact ih (by simp [hms]) (by simpa using hm)

/-- Names that lead somewhere are not too long. -/
theorem Leads.size_le (h : Leads d links a ns p) : ∀ n ∈ ns, isOwnName n = true → Text.utf8Size n ≤ maxName := by
  induction h with
  | here => exact fun n hn => absurd hn List.not_mem_nil
  | stay _ hn _ ih => exact List.forall_mem_cons.2 ⟨fun hown => absurd hn (isOwnName_iff.1 hown).1, ih⟩
  | up _ _ ih => exact List.forall_mem_cons.2 ⟨fun hown => absurd hown (by decide), ih⟩
  | link _ _ hs _ _ ih =>
    exact List.forall_mem_cons.2 ⟨fun _ => hs, fun n hn => ih n (List.mem_append_right _ hn)⟩
  | down _ _ hs _ _ _ ih => exact List.forall_mem_cons.2 ⟨fun _ => hs, ih⟩

/-- Names that are not too long lead down through directories that are there. -/
theorem leads_of_directories (hup : (".." : Text) ∉ ns) (hs : ∀ n ∈ ns, isOwnName n = true → Text.utf8Size n ≤ maxName)
    (hd : ∀ q, a <+: q → q <+: a ++ ns.filter isOwnName → d.entry? q = some .directory) (links : Nat) :
    Leads d links a ns (a ++ ns.filter isOwnName) := by
  induction ns generalizing a with
  | nil => simpa using Leads.here links a
  | cons n ns ih =>
    obtain ⟨hn, hns⟩ := List.forall_mem_cons.1 hs
    have hup' : (".." : Text) ∉ ns := fun hm => hup (List.mem_cons_of_mem n hm)
    have ha := hd a (List.prefix_refl a) (List.prefix_append a _)
    by_cases hown : isOwnName n = true
    · rw [List.filter_cons_of_pos hown] at hd ⊢
      have hbelow : a ++ [n] <+: a ++ n :: ns.filter isOwnName := by simp [List.prefix_append_right_inj]
      have hrest := ih hup' hns fun q hq hq' =>
        hd q ((List.prefix_append a [n]).trans hq) (by simpa using hq')
      rw [List.append_assoc, List.singleton_append] at hrest
      exact .down ha hown (hn hown) (hd _ (List.prefix_append a [n]) hbelow) (by simp) hrest
    · rw [List.filter_cons_of_neg hown] at hd ⊢
      refine .stay ha (not_not.1 fun hne => ?_) (ih hup' hns hd)
      exact hown (isOwnName_iff.2 ⟨hne, fun he => hup (he ▸ List.mem_cons_self)⟩)

/-- Where no link stands the names of a place lead nowhere else. -/
theorem find_pathOf (hp : Plain p) (hl : Linkless d p) (h : d.find (pathOf p) = .ok q) : q = p := by
  rw [find, follow_eq_ok_iff] at h
  by_cases hn : p = []
  · subst hn
    have hnil : (Text.splitOn '/' (pathOf [])).filter isOwnName = [] := rfl
    have := h.eq_append (by decide) fun r t _ hr => hl r t (by simpa only [hnil, List.append_nil] using hr)
    rwa [hnil] at this
  · have hfilter : ([] :: p).filter isOwnName = p := by rw [List.filter_cons_of_neg (by decide), hp.filter_eq]
    rw [splitOn_pathOf hn hp] at h
    have := h.eq_append (mt List.mem_cons.1 (not_or.2 ⟨by decide, hp.not_mem_up⟩)) fun r t _ hr =>
      hl r t (by simpa [hfilter] using hr)
    rwa [hfilter] at this

theorem open?_eq_ok_iff {path : Text} {f : Bytes × Int} :
    d.open? path = .ok f ↔ ∃ p, d.find path = .ok p ∧ d.entry? p = some (.file f.1 f.2) := by
  unfold open?
  cases d.find path with
  | error e => simp
  | ok p =>
    cases he : d.entry? p with
    | none => simp [he]
    | some e => cases e <;> simp [he, Prod.ext_iff]

theorem isFile_iff {path : Text} : d.isFile path = true ↔ ∃ f, d.open? path = .ok f := by
  simp only [open?_eq_ok_iff]
  unfold isFile entryAt?
  cases d.find path with
  | error e => simp
  | ok p =>
    cases he : d.entry? p with
    | none => simp [he]
    | some e => cases e <;> simp [he]

/-- A file is read at its place as far as its names are not too long. -/
theorem Rooted.open?_pathOf (hr : Rooted d) (hp : Plain p) {f : Bytes × Int} (he : d.entry? p = some (.file f.1 f.2))
    (hs : ∀ n ∈ p, Text.utf8Size n ≤ maxName) : d.open? (pathOf p) = .ok f := by
  obtain rfl | ⟨ns, n, rfl⟩ := List.eq_nil_or_concat p
  · simp [ entry?] at he
  · rw [List.concat_eq_append] at *
    refine open?_eq_ok_iff.2 ⟨_, ?_, he⟩
    have hns : Plain ns := fun m hm => hp m (List.mem_append_left _ hm)
    have hdir : ∀ q, q <+: ns → d.entry? q = some .directory := fun q hq =>
      hr.isDirectory (by simp [he]) (hq.trans (List.prefix_append ns [n])) fun hsame => by
        have := hq.length_le
        rw [hsame, List.length_append, List.length_singleton] at this
        omega
    have hway : Leads d maxLinks [] ns ns := by
      have := leads_of_directories (d := d) (a := []) hns.not_mem_up (fun m hm _ => hs m (List.mem_append_left _ hm))
        (fun q _ hq => hdir q (by simpa [hns.filter_eq] using hq)) maxLinks
      simpa [hns.filter_eq] using this
    have hn := hp n (by simp)
    rw [find, follow_eq_ok_iff, splitOn_pathOf (by simp) hp]
    refine .stay rfl (.inl rfl) (hway.append fun links => ?_)
    exact .down (hdir ns (List.prefix_refl ns)) hn.1 (hs n (by simp)) he (by simp) (.here links _)

/-- At a place without links the same is read while files come elsewhere. -/
theorem Evolves.open?_pathOf_iff (h : Evolves made written d d') (hr : Rooted d)
    (hw : ∀ p t, written p → d.entry? p ≠ some (.link t)) (hp : Plain p) (hl : Linkless d p) (hn : ¬ written p)
    {f : Bytes × Int} : d'.open? (pathOf p) = .ok f ↔ d.open? (pathOf p) = .ok f := by
  constructor
  · intro ho
    obtain ⟨q, hq, he⟩ := open?_eq_ok_iff.1 ho
    obtain rfl := find_pathOf hp (fun r t hr ht => hl r t hr (h.inherits.link r t ht)) hq
    have he' : d.entry? q = some (.file f.1 f.2) := by
      rcases h q with hsame | ⟨-, -, hdir⟩ | ⟨hput, -⟩
      · exact hsame ▸ he
      · simp [hdir] at he
      · exact absurd hput hn
    refine hr.open?_pathOf hp he' fun n hn => ?_
    rw [find, follow_eq_ok_iff, splitOn_pathOf (List.ne_nil_of_mem hn) hp] at hq
    exact hq.size_le n (List.mem_cons_of_mem _ hn) (hp n hn).1
  · intro ho
    obtain ⟨q, hq, he⟩ := open?_eq_ok_iff.1 ho
    obtain rfl := find_pathOf hp hl hq
    exact open?_eq_ok_iff.2 ⟨q, h.find_eq_ok hw hq, h.entry?_of_some hn he⟩

end StylePrune.Disk
