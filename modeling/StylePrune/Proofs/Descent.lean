import StylePrune.Disk
import StylePrune.Proofs.Path

/-!
Paths that never go up. Joined to another path such a path goes on from there, and its names in order are all
that its normal form keeps.
-/

set_option autoImplicit false

namespace StylePrune

namespace Text

variable {c : CodePoint}

theorem not_mem_of_mem_splitOn {s t : Text} (h : t ∈ splitOn c s) : c ∉ t := by
  unfold splitOn at h
  induction s generalizing t with
  | nil =>
    obtain rfl := List.mem_singleton.1 h
    exact List.not_mem_nil
  | cons a s ih =>
    rw [splitWhen] at h
    split at h
    · rcases List.mem_cons.1 h with rfl | h
      · exact List.not_mem_nil
      · exact ih h
    · rename_i ha
      split at h
      · obtain rfl := List.mem_singleton.1 h
        simpa [eq_comm] using ha
      · rename_i w ws hs
        rcases List.mem_cons.1 h with rfl | h
        · have hw := ih (hs ▸ List.mem_cons_self)
          simpa [hw, eq_comm] using ha
        · exact ih (hs ▸ List.mem_cons_of_mem w h)

theorem splitOn_joinWith {ws : List Text} (hn : ws ≠ []) (h : ∀ w ∈ ws, c ∉ w) : splitOn c (joinWith [c] ws) = ws := by
  induction ws with
  | nil => exact absurd rfl hn
  | cons w ws ih =>
    have hw : splitOn c w = [w] := splitOn_of_not_mem (h w List.mem_cons_self)
    cases ws with
    | nil => exact hw
    | cons v vs =>
      rw [joinWith, List.append_assoc, List.singleton_append, splitOn_append, hw,
        ih (List.cons_ne_nil v vs) fun w hw => h w (List.mem_cons_of_mem _ hw), List.singleton_append]
      exact List.cons_ne_nil v vs

end Text

namespace Disk

/-- Names that something can have in a directory, as paths spell them. -/
def Plain (p : Place) : Prop := ∀ n ∈ p, isOwnName n = true ∧ CodePoint.char '/' ∉ n

theorem Plain.of_append_right {p q : Place} (h : Plain (p ++ q)) : Plain q := fun n hn =>
  h n (List.mem_append_right p hn)

theorem Plain.filter_eq {p : Place} (h : Plain p) : p.filter isOwnName = p :=
  List.filter_eq_self.2 fun n hn => (h n hn).1

theorem Plain.not_mem_up {p : Place} (h : Plain p) : (".." : Text) ∉ p := fun hm => absurd (h _ hm).1 (by decide)

theorem splitOn_pathOf {p : Place} (hn : p ≠ []) (h : Plain p) : Text.splitOn '/' (pathOf p) = [] :: p := by
  have := Text.splitOn_append '/' [] (Text.joinWith ['/'] p)
  rw [Text.splitOn_joinWith hn fun n hn => (h n hn).2] at this
  exact this

end Disk

namespace Path

open Disk (isOwnName)

theorem follow_of_not_mem {ns : List Text} (h : (".." : Text) ∉ ns) (absolute : Bool) (done : List Text) :
    follow absolute done ns = done.reverse ++ ns.filter isOwnName := by
  induction ns generalizing done with
  | nil => simp [follow]
  | cons n ns ih =>
    obtain ⟨hn, hns⟩ := not_or.1 (mt List.mem_cons.2 h)
    rw [follow]
    by_cases hs : n = [] ∨ n = "."
    · have hown : ¬ isOwnName n = true := by
        rcases hs with rfl | rfl <;> decide
      rw [if_pos hs, ih hns, List.filter_cons_of_neg hown]
    · have hown : isOwnName n = true := by
        obtain ⟨hnil, hdot⟩ := not_or.1 hs
        simp [isOwnName, hnil, hdot, Ne.symm hn]
      rw [if_neg hs, if_neg (Ne.symm hn), ih hns, List.filter_cons_of_pos hown]
      simp

/-- The names of a path in normal form are those that the path goes down by. -/
theorem names_normalize {p : Text} (h : (".." : Text) ∉ Text.splitOn '/' p)
    (hn : (Text.splitOn '/' p).filter isOwnName ≠ []) :
    names (normalize p) = (Text.splitOn '/' p).filter isOwnName := by
  unfold normalize
  simp only [follow_of_not_mem h, List.reverse_nil, List.nil_append]
  generalize hns : (Text.splitOn '/' p).filter isOwnName = ns at hn
  have hplain : ∀ n ∈ ns, isOwnName n = true ∧ CodePoint.char '/' ∉ n := by
    intro n hn
    rw [← hns, List.mem_filter] at hn
    exact ⟨hn.2, Text.not_mem_of_mem_splitOn hn.1⟩
  have hsplit : Text.splitOn '/' (Text.joinWith ['/'] ns) = ns := Text.splitOn_joinWith hn fun n hn => (hplain n hn).2
  have hfilter : ns.filter (· ≠ []) = ns := by
    refine List.filter_eq_self.2 fun n hn => ?_
    have := (hplain n hn).1
    simp only [isOwnName, Bool.and_eq_true] at this
    exact this.1.1
  have hslashes (s : Text) (i : Nat) (hs : s = List.replicate i (.char '/')) :
      names (s ++ Text.joinWith ['/'] ns) = ns := by
    subst hs
    rw [names]
    induction i with
    | zero => rw [List.replicate_zero, List.nil_append, hsplit, hfilter]
    | succ i ih =>
      have := Text.splitOn_append '/' [] (List.replicate i (.char '/') ++ Text.joinWith ['/'] ns)
      rw [List.nil_append] at this
      rw [List.replicate_succ, List.cons_append, this]
      exact ih
  have hne (s : Text) : s ++ Text.joinWith ['/'] ns ≠ [] := by
    intro he
    rw [(List.append_eq_nil_iff.1 he).2] at hsplit
    have : ns = [[]] := hsplit.symm
    subst this
    exact absurd (hplain [] List.mem_cons_self).1 (by decide)
  rw [if_neg (hne _)]
  split
  · exact hslashes _ 2 rfl
  · split
    · exact hslashes _ 0 rfl
    · exact hslashes _ 1 rfl

theorem names_normalize_pathOf {p : Place} (h : Disk.Plain p) : names (normalize (Disk.pathOf p)) = p := by
  cases p with
  | nil => rfl
  | cons n ns =>
    have hs := Disk.splitOn_pathOf (List.cons_ne_nil n ns) h
    have hf : ([] :: n :: ns).filter isOwnName = n :: ns := by
      rw [List.filter_cons_of_neg (by decide), h.filter_eq]
    rw [names_normalize, hs, hf]
    · rw [hs]
      exact mt List.mem_cons.1 (not_or.2 ⟨by decide, h.not_mem_up⟩)
    · rw [hs, hf]
      exact List.cons_ne_nil n ns

/-- A path from where one is that never goes up. -/
structure Descends (p : Text) : Prop where
  isRelative : isAbsolute p = false
  not_up : (".." : Text) ∉ Text.splitOn '/' p

theorem isAbsolute_of_not_mem {n : Text} (h : CodePoint.char '/' ∉ n) : isAbsolute n = false := by
  cases n with
  | nil => rfl
  | cons c n =>
    have hc : c ≠ .char '/' := fun hc => h (hc ▸ List.mem_cons_self)
    simp [isAbsolute, hc]

theorem descends_of_isOwnName {n : Text} (hn : isOwnName n = true) (h : CodePoint.char '/' ∉ n) : Descends n := by
  refine ⟨isAbsolute_of_not_mem h, ?_⟩
  rw [Text.splitOn_of_not_mem h, List.mem_singleton]
  rintro rfl
  exact absurd hn (by decide)

theorem descends_joinWith {p : Place} (hn : p ≠ []) (h : Disk.Plain p) : Descends (Text.joinWith ['/'] p) := by
  have hs : Text.splitOn '/' (Text.joinWith ['/'] p) = p := Text.splitOn_joinWith hn fun n hn => (h n hn).2
  refine ⟨?_, by rw [hs]; exact h.not_mem_up⟩
  cases p with
  | nil => exact absurd rfl hn
  | cons n ns =>
    have hown := (h n List.mem_cons_self)
    have hn : n ≠ [] := by
      rintro rfl
      exact absurd hown.1 (by decide)
    have hfront : ∃ t, Text.joinWith ['/'] (n :: ns) = n ++ t := by
      cases ns with
      | nil => exact ⟨[], by simp [Text.joinWith]⟩
      | cons m ms => exact ⟨_, List.append_assoc ..⟩
    obtain ⟨t, ht⟩ := hfront
    have habs := isAbsolute_of_not_mem hown.2
    rw [ht]
    cases n with
    | nil => exact absurd rfl hn
    | cons c n => exact habs

/-- Joined to a path, one that does not start at the root is the rest of the names. -/
theorem exists_splitOn_join (a : Text) {b : Text} (h : isAbsolute b = false) : ∃ front,
    Text.splitOn '/' (join a b) = front ++ Text.splitOn '/' b ∧
      (front = Text.splitOn '/' a ∨ front ++ [[]] = Text.splitOn '/' a) := by
  rw [join, if_neg (by simp [h])]
  by_cases ha : a = []
  · exact ⟨[], by simp [ha], .inr (by rw [ha]; rfl)⟩
  · by_cases hl : a.getLast? = some (.char '/')
    · obtain ⟨s, rfl⟩ := List.getLast?_eq_some_iff.1 hl
      refine ⟨Text.splitOn '/' s, ?_, .inr (Text.splitOn_append '/' s []).symm⟩
      rw [if_pos (.inr hl), List.append_assoc, List.singleton_append, Text.splitOn_append]
    · exact ⟨Text.splitOn '/' a, by rw [if_neg (not_or.2 ⟨ha, hl⟩), Text.splitOn_append], .inl rfl⟩

theorem Descends.join {a b : Text} (ha : Descends a) (hb : Descends b) : Descends (join a b) := by
  constructor
  · rw [Path.join, if_neg (by simp [hb.isRelative])]
    cases a with
    | nil => exact hb.isRelative
    | cons c a =>
      split
      · exact ha.isRelative
      · exact ha.isRelative
  · obtain ⟨front, hs, hf⟩ := exists_splitOn_join a hb.isRelative
    rw [hs, List.mem_append, not_or]
    refine ⟨fun hm => ?_, hb.not_up⟩
    rcases hf with rfl | hf
    · exact ha.not_up hm
    · exact ha.not_up (hf ▸ List.mem_append_left _ hm)

/-- Paths that do not start at the root are joined one after another in either order. -/
theorem join_assoc (a : Text) {b c : Text} (hb : isAbsolute b = false) (hc : isAbsolute c = false) :
    join (join a b) c = join a (join b c) := by
  have hrel (b : Text) (h : isAbsolute b = false) (a : Text) :
      join a b = if a = [] ∨ a.getLast? = some (.char '/') then a ++ b else a ++ .char '/' :: b := by
    rw [join, if_neg (by simp [h])]
  have hbc : isAbsolute (join b c) = false := by
    rw [hrel c hc]
    cases b with
    | nil => exact hc
    | cons x b => split <;> exact hb
  rw [hrel _ hbc, hrel c hc, hrel c hc, hrel b hb]
  by_cases ha : a = [] ∨ a.getLast? = some (.char '/')
  · rw [if_pos ha, if_pos ha]
    cases b with
    | nil => simp [ha]
    | cons x b =>
      by_cases hl : (x :: b).getLast? = some (.char '/') <;> simp [List.getLast?_append, hl]
  · rw [if_neg ha, if_neg ha]
    cases b with
    | nil => simp
    | cons x b =>
      by_cases hl : (x :: b).getLast? = some (.char '/') <;> simp [List.getLast?_append, hl]

theorem commonLength_append (ds ms : List Text) : commonLength ds (ds ++ ms) = ds.length := by
  induction ds with
  | nil => cases ms <;> rfl
  | cons d ds ih => rw [List.cons_append, commonLength, if_pos rfl, ih, List.length_cons]

/-- The way from a directory to something in it is the names that follow, or a dot if that is the directory. -/
theorem relative_append {root ms : Place} (hp : Disk.Plain (root ++ ms)) :
    relative (Disk.pathOf root) (Disk.pathOf (root ++ ms)) =
      if ms = [] then ([.char '.'] : Text) else Text.joinWith ['/'] ms := by
  have hr : Disk.Plain root := fun n hn => hp n (List.mem_append_left ms hn)
  unfold relative
  simp only [names_normalize_pathOf hp, names_normalize_pathOf hr, commonLength_append, Nat.sub_self,
    List.replicate_zero, List.nil_append, List.drop_left]

/-- The way from a directory to something in it never goes up. -/
theorem descends_relative {root place : Place} (hb : Disk.isBelow root place = true) (hp : Disk.Plain place) :
    Descends (relative (Disk.pathOf root) (Disk.pathOf place)) := by
  obtain ⟨ms, rfl⟩ := List.isPrefixOf_iff_prefix.1 hb
  rw [relative_append hp]
  split
  · exact ⟨by decide, by decide⟩
  · rename_i hn
    exact descends_joinWith hn hp.of_append_right

theorem relative_ne_nil {root place : Place} (hb : Disk.isBelow root place = true) (hp : Disk.Plain place) :
    relative (Disk.pathOf root) (Disk.pathOf place) ≠ [] := by
  obtain ⟨ms, rfl⟩ := List.isPrefixOf_iff_prefix.1 hb
  rw [relative_append hp]
  split
  · simp
  · rename_i hn
    intro h
    have hs := Text.splitOn_joinWith hn fun n hn => (hp.of_append_right n hn).2
    rw [h] at hs
    have hnil : ([] : Text) ∈ ms := hs ▸ List.mem_singleton_self []
    exact absurd (hp.of_append_right _ hnil).1 (by decide)

end Path

end StylePrune
