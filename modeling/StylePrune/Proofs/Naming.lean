import StylePrune.Proofs.Descent
import StylePrune.Proofs.Disk.Resolving
import StylePrune.Site

/-!
Which texts name a stylesheet at all. A reference without brackets has a key, and a key that could be the name of
a file has a place on every disk whose links lead to such names; nothing need stand there.
-/

set_option autoImplicit false

namespace StylePrune

namespace Text

variable {c : CodePoint} {s : Text}

theorem mem_of_mem_splitOn {t : Text} (ht : t ∈ splitOn c s) {x : CodePoint} (hx : x ∈ t) : x ∈ s := by
  induction s generalizing t with
  | nil =>
    obtain rfl : t = [] := by simpa [splitOn, splitWhen] using ht
    exact hx
  | cons y s ih =>
    simp only [splitOn, splitWhen] at ih ht
    split at ht
    · rcases List.mem_cons.1 ht with rfl | ht
      · cases hx
      · exact List.mem_cons_of_mem _ (ih ht hx)
    · split at ht
      · obtain rfl := List.mem_singleton.1 ht
        obtain rfl := List.mem_singleton.1 hx
        exact List.mem_cons_self
      · rename_i w ws hw
        rcases List.mem_cons.1 ht with rfl | ht
        · rcases List.mem_cons.1 hx with rfl | hx
          · exact List.mem_cons_self
          · exact List.mem_cons_of_mem _ (ih (hw ▸ List.mem_cons_self) hx)
        · exact List.mem_cons_of_mem _ (ih (hw ▸ List.mem_cons_of_mem _ ht) hx)

theorem mem_joinWith {ws : List Text} {sep : Text} {x : CodePoint} (h : x ∈ joinWith sep ws) :
    x ∈ sep ∨ ∃ w ∈ ws, x ∈ w := by
  fun_induction joinWith sep ws with
  | case1 => cases h
  | case2 w => exact .inr ⟨w, List.mem_cons_self, h⟩
  | case3 w ws _ ih =>
    rcases List.mem_append.1 h with h | h
    · rcases List.mem_append.1 h with h | h
      · exact .inr ⟨w, List.mem_cons_self, h⟩
      · exact .inl h
    · exact (ih h).imp_right fun ⟨v, hv, hx⟩ => ⟨v, List.mem_cons_of_mem _ hv, hx⟩

end Text

theorem Path.mem_follow {absolute : Bool} {done ns : List Text} {n : Text} (h : n ∈ follow absolute done ns) :
    n ∈ done ∨ n ∈ ns := by
  fun_induction follow absolute done ns with
  | case1 done => exact .inl (List.mem_reverse.1 h)
  | case2 done m ns _ ih => exact (ih h).imp_right (List.mem_cons_of_mem _)
  | case3 done ns _ _ ih =>
    rcases ih h with h | h
    · rcases List.mem_cons.1 h with rfl | h
      · exact .inr List.mem_cons_self
      · exact .inl h
    · exact .inr (List.mem_cons_of_mem _ h)
  | case4 done ns _ _ ih => exact (ih h).imp List.mem_of_mem_tail (List.mem_cons_of_mem _)
  | case5 done m ns _ _ ih =>
    rcases ih h with h | h
    · rcases List.mem_cons.1 h with rfl | h
      · exact .inr List.mem_cons_self
      · exact .inl h
    · exact .inr (List.mem_cons_of_mem _ h)

namespace Disk

variable {d : Disk}

/-- A text that names of files can be made of. -/
def Spells (s : Text) : Prop := ∀ c ∈ s, isNameChar c = true ∧ c ≠ '\x00'

theorem badName?_of_spells {s : Text} (h : Spells s) : badName? s = none := by
  have hall : s.all isNameChar = true := List.all_eq_true.2 fun c hc => (h c hc).1
  have hnul : CodePoint.char '\x00' ∉ s := fun hc => (h _ hc).2 rfl
  simp [badName?, hall, hnul]

theorem Spells.append {s t : Text} (hs : Spells s) (ht : Spells t) : Spells (s ++ t) :=
  List.forall_mem_append.2 ⟨hs, ht⟩

theorem Spells.splitOn {s t : Text} (h : Spells s) (ht : t ∈ Text.splitOn '/' s) : Spells t :=
  fun c hc => h c (Text.mem_of_mem_splitOn ht hc)

theorem spells_slash : Spells ['/'] := by simp [Spells, isNameChar]

theorem spells_pathOf {p : Place} (h : ∀ n ∈ p, Spells n) : Spells (pathOf p) := by
  refine spells_slash.append fun c hc => ?_
  rcases Text.mem_joinWith hc with hc | ⟨n, hn, hc⟩
  · exact spells_slash c hc
  · exact h n hn c hc

theorem Spells.join {s t : Text} (hs : Spells s) (ht : Spells t) : Spells (Path.join s t) := by
  unfold Path.join
  split
  · exact ht
  · split
    · exact hs.append ht
    · exact hs.append (spells_slash.append ht)

/-- Every link leads to names that files can have. -/
def LinksSpell (d : Disk) : Prop := ∀ p t, d.entry? p = some (.link t) → Spells t

theorem exists_resolveFrom (hl : LinksSpell d) (depth : Nat) (active : List Place) {done : Place}
    {rest : List Text} (hd : ∀ n ∈ done, Spells n) (hr : ∀ n ∈ rest, Spells n) :
    ∃ r, d.resolveFrom depth active done rest = .ok r ∧ ∀ n ∈ r.1, Spells n := by
  have concat {done : Place} {n : Text} (hd : ∀ m ∈ done, Spells m) (hn : Spells n) : ∀ m ∈ done ++ [n], Spells m :=
    List.forall_mem_append.2 ⟨hd, List.forall_mem_singleton.2 hn⟩
  have rejoin {done : Place} {rest : List Text} (hd : ∀ m ∈ done, Spells m) (hr : ∀ m ∈ rest, Spells m) :
      ∀ m ∈ rejoin done rest, Spells m := by
    unfold Disk.rejoin
    split
    · exact (List.forall_mem_cons.1 hr).2
    · exact List.forall_mem_append.2 ⟨hd, hr⟩
  have start {done : Place} (t : Text) (hd : ∀ m ∈ done, Spells m) :
      ∀ m ∈ (if Path.isAbsolute t then [] else done), Spells m := by
    split
    · exact List.forall_mem_nil _
    · exact hd
  fun_induction resolveFrom d depth active done rest with
  | case1 depth active done => exact ⟨_, rfl, hd⟩
  | case2 depth active done n rest hn ih => exact ih hd (List.forall_mem_cons.1 hr).2
  | case3 depth active done rest hn ih =>
    exact ih (fun m hm => hd m (List.dropLast_subset _ hm)) (List.forall_mem_cons.1 hr).2
  | case4 depth active done n rest hn hup b hb =>
    rw [badName?_of_spells (List.forall_mem_cons.1 hr).1] at hb
    cases hb
  | case5 | case6 => exact ⟨_, rfl, rejoin (concat hd (List.forall_mem_cons.1 hr).1) (List.forall_mem_cons.1 hr).2⟩
  | case7 active done n rest hn hup hb t ht hm depth e he ih =>
    obtain ⟨r, hr', -⟩ := ih (start t hd) fun m hm => (hl _ t ht).splitOn hm
    rw [he] at hr'
    cases hr'
  | case8 active done n rest hn hup hb t ht hm depth p hp ih ih' =>
    obtain ⟨r, hr', hs⟩ := ih (start t hd) fun m hm => (hl _ t ht).splitOn hm
    obtain rfl := Except.ok.inj (hp.symm.trans hr')
    exact ih' hs (List.forall_mem_cons.1 hr).2
  | case9 active done n rest hn hup hb t ht hm depth p hp ih =>
    obtain ⟨r, hr', hs⟩ := ih (start t hd) fun m hm => (hl _ t ht).splitOn hm
    obtain rfl := Except.ok.inj (hp.symm.trans hr')
    exact ⟨_, rfl, rejoin hs (List.forall_mem_cons.1 hr).2⟩
  | case10 depth active done n rest hn hup hb hnl ih =>
    exact ih (concat hd (List.forall_mem_cons.1 hr).1) (List.forall_mem_cons.1 hr).2

theorem exists_resolve (hl : LinksSpell d) {path : Text} (hp : Spells path) :
    ∃ p, d.resolve path = .ok p ∧ ∀ n ∈ p, Spells n := by
  obtain ⟨r, hr, hs⟩ := exists_resolveFrom hl d.entries.entries.length [] (List.forall_mem_nil _) fun _ => hp.splitOn
  refine ⟨Path.follow true [] r.1, by rw [resolve, hr]; rfl, fun n hn => ?_⟩
  exact hs n ((Path.mem_follow hn).resolve_left List.not_mem_nil)

end Disk

/-- A key that a file could have, on a site and a disk with such names, is looked for. -/
theorem Site.locate_ne_badName {s : Site} {d : Disk} {file : Text} (hl : d.LinksSpell) (hs : Disk.Spells s.root)
    (hf : Disk.Spells file) (b : Disk.BadName) : locate s d file ≠ .error (.badName b) := by
  obtain ⟨root, hroot, hnames⟩ := Disk.exists_resolve hl hs
  obtain ⟨place, hplace, -⟩ := Disk.exists_resolve hl ((Disk.spells_pathOf hnames).join hf)
  unfold locate
  split
  · nofun
  · simp only [hroot, hplace]
    split
    · nofun
    · split
      · nofun
      · nofun

namespace Url

/-- A text without brackets and without characters that stand for a delimiter. -/
def IsBare (s : Text) : Prop := ∀ c ∈ s, c ≠ '[' ∧ c ≠ ']' ∧ foldsToDelimiter c = false

theorem checkNetloc_of_isBare {s : Text} (h : IsBare s) : checkNetloc s = .ok () := by
  have hopen : CodePoint.char '[' ∉ s := fun hc => (h _ hc).1 rfl
  have hclose : CodePoint.char ']' ∉ s := fun hc => (h _ hc).2.1 rfl
  have hfold : s.any foldsToDelimiter = false := List.any_eq_false.2 fun c hc => by simp [(h c hc).2.2]
  simp [checkNetloc, hopen, hclose, hfold]

theorem exists_parseUnder {s : Text} (h : IsBare s) (scheme : Text) : ∃ u, parseUnder scheme s = .ok u := by
  have hsan : IsBare (sanitize s) :=
    fun c hc => h c ((List.dropWhile_sublist _).subset (List.mem_of_mem_filter hc))
  have hcut : IsBare ((cutScheme? (sanitize s)).getD (scheme, sanitize s)).2 := by
    unfold cutScheme?
    split
    · rename_i name rest hc
      have hrest : IsBare rest := fun c hc' => hsan c (by
        rw [Text.eq_append_of_cutAt? hc]
        exact List.mem_append_right _ hc')
      split
      · exact hrest
      · exact hsan
    · exact hsan
  simp only [parseUnder]
  split
  · rename_i e he
    refine absurd (he.symm.trans (checkNetloc_of_isBare ?_)) nofun
    split
    · rename_i r hr
      refine fun c hc => hcut c ?_
      rw [Text.eq_append_of_after? hr]
      exact List.mem_append_right _ ((List.takeWhile_sublist _).subset hc)
    · exact fun _ hc => absurd hc List.not_mem_nil
  · exact ⟨_, rfl⟩

end Url

theorem SourceKey.exists_ofReference {s : Text} (h : Url.IsBare s) : ∃ file, ofReference s = .ok file := by
  unfold ofReference
  split
  · exact ⟨s, rfl⟩
  · obtain ⟨u, hu⟩ := Url.exists_parseUnder h []
    rw [Url.parse, hu]
    exact ⟨_, rfl⟩

end StylePrune
