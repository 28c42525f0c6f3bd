import Mathlib.Algebra.Order.BigOperators.Group.List
import Mathlib.Algebra.GroupWithZero.Nat
import Mathlib.Algebra.Order.Group.Nat
import StylePrune.Proofs.Descent
import StylePrune.Proofs.Naming
import StylePrune.Proofs.Url.Parts

/-!
How long locators get. Where a reference is resolved the segments of a path may grow in number, but not in length, and
all but a few lead down.
-/

set_option autoImplicit false

namespace StylePrune

namespace Text

variable {a c : CodePoint} {s t r : Text} {m : Nat}

theorem splitOn_cons_of_eq (h : a = c) (s : Text) : splitOn c (a :: s) = [] :: splitOn c s := by
  subst h
  exact splitOn_append a [] s

theorem exists_splitOn_cons (h : a ≠ c) (s : Text) :
    ∃ w ws, splitOn c s = w :: ws ∧ splitOn c (a :: s) = (a :: w) :: ws := by
  obtain ⟨w, ws, hs⟩ := List.exists_cons_of_ne_nil (splitWhen_ne_nil (· = c) s)
  refine ⟨w, ws, hs, ?_⟩
  rw [splitOn, splitWhen, hs]
  simp [h]

theorem splitOn_concat_append (h : c ∉ r) {init : List Text} {last : Text} (hs : splitOn c s = init ++ [last]) :
    splitOn c (s ++ r) = init ++ [last ++ r] := by
  induction s generalizing init last with
  | nil =>
    obtain ⟨rfl, rfl⟩ : init = [] ∧ last = [] := by
      have hnil : splitOn c [] = [[]] := rfl
      rw [hnil, List.singleton_eq_append_iff] at hs
      simpa [eq_comm] using hs
    exact splitOn_of_not_mem h
  | cons a s ih =>
    by_cases ha : a = c
    · rw [splitOn_cons_of_eq ha] at hs
      rw [List.cons_append, splitOn_cons_of_eq ha]
      cases init with
      | nil => exact absurd (List.cons.inj hs).2 (splitWhen_ne_nil _ s)
      | cons i init =>
        obtain ⟨rfl, htail⟩ := List.cons.inj hs
        exact congrArg _ (ih htail)
    · obtain ⟨w, ws, hw, hcons⟩ := exists_splitOn_cons ha s
      obtain ⟨w', ws', hw', hcons'⟩ := exists_splitOn_cons ha (s ++ r)
      rw [hcons] at hs
      rw [List.cons_append, hcons']
      cases init with
      | nil =>
        obtain ⟨rfl, rfl⟩ := List.cons.inj hs
        have happ : splitOn c (s ++ r) = [] ++ [w ++ r] := ih hw
        obtain ⟨rfl, rfl⟩ := List.cons.inj (hw'.symm.trans happ)
        rfl
      | cons i init =>
        obtain ⟨rfl, rfl⟩ := List.cons.inj hs
        have happ : splitOn c (s ++ r) = w :: init ++ [last ++ r] := ih hw
        obtain ⟨rfl, rfl⟩ := List.cons.inj (hw'.symm.trans happ)
        rfl

theorem sum_length_splitOn (c : CodePoint) (s : Text) :
    ((splitOn c s).map fun w => w.length + 1).sum = s.length + 1 := by
  induction s with
  | nil => rfl
  | cons a s ih =>
    by_cases ha : a = c
    · rw [splitOn_cons_of_eq ha, List.map_cons, List.sum_cons, ih, List.length_nil, List.length_cons]
      omega
    · obtain ⟨w, ws, hs, hcons⟩ := exists_splitOn_cons ha s
      rw [hs, List.map_cons, List.sum_cons] at ih
      rw [hcons, List.map_cons, List.sum_cons, List.length_cons, List.length_cons]
      omega

/-- The number of pieces and the length of each bound the length of the whole. -/
theorem length_lt_of_splitOn (h : ∀ w ∈ splitOn c s, w.length ≤ m) : s.length < (splitOn c s).length * (m + 1) := by
  have hsum := List.sum_le_card_nsmul ((splitOn c s).map fun w => w.length + 1) (m + 1) (by simpa using h)
  rw [sum_length_splitOn, List.length_map, Nat.nsmul_eq_mul] at hsum
  omega

theorem length_splitOn_le (c : CodePoint) (s : Text) : (splitOn c s).length ≤ s.length + 1 := by
  have hcard := List.length_le_sum_of_one_le ((splitOn c s).map fun w => w.length + 1) (by simp)
  rwa [sum_length_splitOn, List.length_map] at hcard

theorem length_le_of_mem_splitOn {w : Text} (h : w ∈ splitOn c s) : w.length ≤ s.length := by
  have hle := List.single_le_sum (by simp) _ (List.mem_map_of_mem (f := fun w : Text => w.length + 1) h)
  rw [sum_length_splitOn] at hle
  omega

end Text

namespace Url

variable {a c : CodePoint} {s t r base ref : Text} {m : Nat} {done mids ss ts : List Text} {last : Text}

/-- Segments no longer than `m`, of which all but the first and the last lead down unless they are few. -/
structure Slim (m : Nat) (s : Text) : Prop where
  length_le : ∀ w ∈ Text.splitOn '/' s, w.length ≤ m
  descends : (∀ w ∈ (Text.splitOn '/' s).tail.dropLast, Disk.isOwnName w = true) ∨ (Text.splitOn '/' s).length ≤ m + 1

namespace Slim

theorem of_cons (h : Slim m (a :: s)) : Slim m s := by
  by_cases ha : a = '/'
  · obtain ⟨hlen, hdesc⟩ := h
    rw [Text.splitOn_cons_of_eq ha] at hlen hdesc
    refine ⟨(List.forall_mem_cons.1 hlen).2, ?_⟩
    rcases hdesc with hall | hcount
    · refine .inl fun w hw => hall w ?_
      rw [← List.tail_dropLast] at hw
      exact List.mem_of_mem_tail hw
    · rw [List.length_cons] at hcount
      exact .inr (by omega)
  · obtain ⟨w, ws, hs, hcons⟩ := Text.exists_splitOn_cons ha s
    obtain ⟨hlen, hdesc⟩ := h
    rw [hcons] at hlen hdesc
    refine ⟨?_, by rwa [hs]⟩
    rw [hs]
    obtain ⟨hw, hws⟩ := List.forall_mem_cons.1 hlen
    rw [List.length_cons] at hw
    exact List.forall_mem_cons.2 ⟨by omega, hws⟩

theorem of_suffix (h : Slim m s) (ht : t <:+ s) : Slim m t := by
  obtain ⟨front, rfl⟩ := ht
  induction front with
  | nil => exact h
  | cons a front ih => exact ih h.of_cons

theorem of_append (h : Slim m (s ++ r)) (hr : CodePoint.char '/' ∉ r) : Slim m s := by
  obtain ⟨init, last, hs⟩ := Text.exists_splitOn_concat '/' s
  obtain ⟨hlen, hdesc⟩ := h
  rw [Text.splitOn_concat_append hr hs] at hlen hdesc
  obtain ⟨hinit, hlast⟩ := List.forall_mem_append.1 hlen
  have htail (x : Text) : (init ++ [x]).tail.dropLast = init.tail := by
    rw [← List.tail_dropLast, List.dropLast_concat]
  rw [htail, List.length_append, List.length_singleton] at hdesc
  refine ⟨?_, ?_⟩
  · rw [hs]
    rw [List.forall_mem_singleton, List.length_append] at hlast
    exact List.forall_mem_append.2 ⟨hinit, List.forall_mem_singleton.2 (by omega)⟩
  · rwa [hs, htail, List.length_append, List.length_singleton]

theorem of_length_le (h : s.length ≤ m) : Slim m s :=
  ⟨fun _ hw => (Text.length_le_of_mem_splitOn hw).trans h,
    .inr ((Text.length_splitOn_le '/' s).trans (Nat.add_le_add_right h 1))⟩

/-- Behind slashes there are as many segments but one, unless they are few. -/
theorem length_splitOn_le (h : Slim m s) : (Text.splitOn '/' s).length ≤ m + 1 ∨
    (∀ w ∈ (Text.splitOn '/' (s.dropWhile (· = .char '/'))).tail.dropLast, Disk.isOwnName w = true) ∧
    (Text.splitOn '/' s).length ≤ (Text.splitOn '/' (s.dropWhile (· = .char '/'))).length + 1 := by
  refine or_iff_not_imp_left.2 fun hmany => ?_
  have hown := h.descends.resolve_right hmany
  cases s with
  | nil => exact ⟨hown, Nat.le_succ _⟩
  | cons a s =>
    by_cases ha : a = '/'
    · rw [Text.splitOn_cons_of_eq ha, List.tail_cons] at hown
      have hstart : s.dropWhile (· = .char '/') = s := by
        cases s with
        | nil => rfl
        | cons a' s =>
          -- an empty segment in between is no name
          by_cases ha' : a' = '/'
          · have hne : Text.splitOn '/' s ≠ [] := Text.splitWhen_ne_nil _ s
            rw [Text.splitOn_cons_of_eq ha', List.dropLast_cons_of_ne_nil hne] at hown
            exact absurd (hown [] List.mem_cons_self) (by decide)
          · exact List.dropWhile_cons_of_neg (by simpa using ha')
      rw [List.dropWhile_cons_of_pos (by simpa using ha), hstart, Text.splitOn_cons_of_eq ha]
      refine ⟨fun w hw => hown w ?_, le_of_eq rfl⟩
      rw [← List.tail_dropLast] at hw
      exact List.mem_of_mem_tail hw
    · rw [List.dropWhile_cons_of_neg (by simpa using ha)]
      exact ⟨hown, Nat.le_succ _⟩

end Slim

/-! ## Merging and following segments -/

theorem exists_mergeSegments (base ref : Text) : ∃ mids front last, Text.splitOn '/' ref = front ++ [last] ∧
    mergeSegments base ref = mids ++ [last] ∧ (∀ w ∈ mids, w ∈ Text.splitOn '/' base ∨ w ∈ Text.splitOn '/' ref) ∧
    ((∀ w ∈ mids.tail, w ≠ []) ∨ mids.length ≤ ref.length) ∧
    mids.length ≤ (Text.splitOn '/' base).length + ref.length := by
  obtain ⟨front, last, hs⟩ := Text.exists_splitOn_concat '/' ref
  have hcount := Text.length_splitOn_le '/' ref
  rw [hs, List.length_append, List.length_singleton] at hcount
  unfold mergeSegments
  split
  · refine ⟨front, front, last, hs, hs, fun w hw => .inr ?_, .inr (by omega), by omega⟩
    rw [hs]
    exact List.mem_append_left _ hw
  · generalize hd : (if (Text.splitOn '/' base).getLast? = some [] then Text.splitOn '/' base
      else (Text.splitOn '/' base).dropLast) = dirs
    have hsub : dirs.Sublist (Text.splitOn '/' base) := by
      rw [← hd]
      split
      · exact List.Sublist.refl _
      · exact List.dropLast_sublist _
    have hmem : ∀ w ∈ dirs ++ front, w ∈ Text.splitOn '/' base ∨ w ∈ Text.splitOn '/' ref := by
      rw [hs]
      intro w hw
      exact (List.mem_append.1 hw).imp (hsub.subset ·) (List.mem_append_left _ ·)
    have hlen : (dirs ++ front).length ≤ (Text.splitOn '/' base).length + ref.length := by
      rw [List.length_append]
      exact Nat.add_le_add hsub.length_le (by omega)
    dsimp only
    rw [hd, hs, ← List.append_assoc]
    cases hf : dirs ++ front with
    | nil => exact ⟨[], front, last, rfl, rfl, by simp, .inl (by simp), Nat.zero_le _⟩
    | cons first rest =>
      rw [hf] at hmem hlen
      have hfilter : (rest.filter (· ≠ [])).Sublist rest := List.filter_sublist
      refine ⟨first :: rest.filter (· ≠ []), front, last, rfl, by simp, ?_, .inl ?_, ?_⟩
      · rw [← hs]
        exact fun w hw => hmem w ((hfilter.cons_cons first).subset hw)
      · intro w hw
        simpa using (List.mem_filter.1 hw).2
      · exact (hfilter.cons_cons first).length_le.trans hlen

theorem followSegments_append (done ss ts : List Text) :
    followSegments done (ss ++ ts) = followSegments (followSegments done ss).reverse ts := by
  induction ss generalizing done with
  | nil => simp [followSegments]
  | cons s ss ih =>
    rw [List.cons_append, followSegments, followSegments]
    split
    · exact ih _
    · split <;> exact ih _

theorem followSegments_sublist (done ss : List Text) : (followSegments done ss).Sublist (done.reverse ++ ss) := by
  induction ss generalizing done with
  | nil => simp [followSegments]
  | cons s ss ih =>
    rw [followSegments]
    split
    · refine (ih _).trans ?_
      refine List.Sublist.append (List.reverse_sublist.2 (List.tail_sublist done)) (List.sublist_cons_self s ss)
    · split
      · exact (ih _).trans ((List.Sublist.refl _).append (List.sublist_cons_self s ss))
      · simpa using ih (s :: done)

/-- No dots are left. -/
theorem forall_mem_followSegments (hd : ∀ w ∈ done, w ≠ "." ∧ w ≠ "..") :
    ∀ w ∈ followSegments done ss, w ≠ "." ∧ w ≠ ".." := by
  induction ss generalizing done with
  | nil => simpa [followSegments] using hd
  | cons s ss ih =>
    rw [followSegments]
    split
    · exact ih fun w hw => hd w (List.mem_of_mem_tail hw)
    · split
      · exact ih hd
      · rename_i hup hdot
        exact ih (List.forall_mem_cons.2 ⟨⟨hdot, hup⟩, hd⟩)

/-- The segments without dots; one at the end leaves an empty one. -/
def followed (ss : List Text) : List Text :=
  followSegments [] ss ++ if ss.getLast? = some "." ∨ ss.getLast? = some ".." then [[]] else []

theorem resolvePath_eq (ss : List Text) : resolvePath ss =
    if Text.joinWith ['/'] (followed ss) = [] then [CodePoint.char '/'] else Text.joinWith ['/'] (followed ss) := rfl

/-- Segments without dots stay as they are. -/
theorem followSegments_of_forall (h : ∀ w : Text, w ∈ ss → w ≠ "." ∧ w ≠ "..") :
    followSegments done ss = done.reverse ++ ss := by
  induction ss generalizing done with
  | nil => rw [followSegments, List.append_nil]
  | cons w ss ih =>
    obtain ⟨⟨hdot, hup⟩, hss⟩ := List.forall_mem_cons.1 h
    rw [followSegments, if_neg hup, if_neg hdot, ih hss, List.reverse_cons, List.append_assoc, List.singleton_append]

theorem followed_of_forall (h : ∀ w : Text, w ∈ ss → w ≠ "." ∧ w ≠ "..") : followed ss = ss := by
  have hends : ¬ (ss.getLast? = some "." ∨ ss.getLast? = some "..") := by
    rintro (hlast | hlast)
    · exact (h _ (List.mem_of_getLast? hlast)).1 rfl
    · exact (h _ (List.mem_of_getLast? hlast)).2 rfl
  rw [followed, followSegments_of_forall h, if_neg hends, List.reverse_nil, List.nil_append, List.append_nil]

/-- Of the segments those before the last stay, as far as dots do not take them away. -/
theorem exists_followed (mids : List Text) (last : Text) : ∃ ws e, followed (mids ++ [last]) = ws ++ [e] ∧
    (e = last ∨ e = []) ∧ ws.Sublist mids ∧ ∀ w : Text, w ∈ ws → w ≠ "." ∧ w ≠ ".." := by
  have hsub : (followSegments [] mids).Sublist mids := followSegments_sublist [] mids
  have hplain : ∀ w : Text, w ∈ followSegments [] mids → w ≠ "." ∧ w ≠ ".." :=
    forall_mem_followSegments (List.forall_mem_nil _)
  unfold followed
  rw [List.getLast?_concat, followSegments_append]
  by_cases hup : last = ".."
  · refine ⟨(followSegments [] mids).dropLast, [], ?_, .inr rfl, (List.dropLast_sublist _).trans hsub,
      fun w hw => hplain w (List.mem_of_mem_dropLast hw)⟩
    simp [followSegments, hup]
  · by_cases hdot : last = "."
    · refine ⟨followSegments [] mids, [], ?_, .inr rfl, hsub, hplain⟩
      rw [followSegments, if_neg hup, if_pos hdot, followSegments, List.reverse_reverse, if_pos (.inl (by rw [hdot]; rfl))]
    · refine ⟨followSegments [] mids, last, ?_, .inl rfl, hsub, hplain⟩
      simp [followSegments, hdot, hup]

theorem exists_splitOn_resolvePath (h : ∀ w ∈ mids ++ [last], CodePoint.char '/' ∉ w) :
    ∃ ws e, Text.splitOn '/' (resolvePath (mids ++ [last])) = ws ++ [e] ∧ (e = last ∨ e = []) ∧
      (ws.Sublist mids ∨ ws = [[]]) ∧ ∀ w : Text, w ∈ ws → w ≠ "." ∧ w ≠ ".." := by
  obtain ⟨ws, e, hws, he, hsub, hplain⟩ := exists_followed mids last
  rw [resolvePath_eq, hws]
  have hslash : ∀ w ∈ ws ++ [e], CodePoint.char '/' ∉ w := by
    refine List.forall_mem_append.2 ⟨fun w hw => h w (List.mem_append_left _ (hsub.subset hw)),
      List.forall_mem_singleton.2 ?_⟩
    rcases he with rfl | rfl
    · exact h _ (List.mem_append_right _ (List.mem_singleton_self _))
    · exact List.not_mem_nil
  split
  · exact ⟨[[]], [], rfl, .inr rfl, .inr rfl, by decide⟩
  · exact ⟨ws, e, Text.splitOn_joinWith (by simp) hslash, he, .inl hsub, hplain⟩

/-- What stands behind the path. -/
def behindPath (u : Url) : Text := if u.params = [] then [] else .char ';' :: u.params

theorem core_eq (u : Url) : u.core = u.path ++ u.behindPath := rfl

theorem not_mem_behindPath {u : Url} (h : CodePoint.char '/' ∉ u.params) : CodePoint.char '/' ∉ u.behindPath := by
  unfold behindPath
  split
  · exact List.not_mem_nil
  · exact fun hm => (List.mem_cons.1 hm).elim (by decide) h

section Merged

variable {u v : Url} {p : Text} (hp : ∀ w ∈ Text.splitOn '/' p, w.length ≤ m) (hu : u.core.length ≤ m)
  (hslash : CodePoint.char '/' ∉ u.params) (hpath : v.path = resolvePath (mergeSegments p u.path))
  (hparams : v.params = u.params)

include hp hu hslash hpath hparams

/-- A short reference to another path leaves segments no longer, and adds few. -/
theorem slim_merged : Slim m v.core ∧ (Text.splitOn '/' v.core).length ≤ (Text.splitOn '/' p).length + m + 2 := by
  obtain ⟨mids, front, last, hs, hmerge, hmem, hinner, hcount⟩ := exists_mergeSegments p u.path
  have hpathlen : u.path.length ≤ m := by
    rw [core_eq, List.length_append] at hu
    omega
  have hlast : last ∈ Text.splitOn '/' u.path := hs ▸ List.mem_append_right _ (List.mem_singleton_self last)
  have hparts : ∀ w ∈ mids ++ [last], CodePoint.char '/' ∉ w := by
    refine List.forall_mem_append.2 ⟨fun w hw => ?_, List.forall_mem_singleton.2 (Text.not_mem_of_mem_splitOn hlast)⟩
    exact (hmem w hw).elim Text.not_mem_of_mem_splitOn Text.not_mem_of_mem_splitOn
  obtain ⟨ws, e, hsplit, he, hws, hplain⟩ := exists_splitOn_resolvePath hparts
  have hbehind := not_mem_behindPath hslash
  have hcore : Text.splitOn '/' v.core = ws ++ [e ++ u.behindPath] := by
    rw [core_eq, hpath, hmerge, behindPath, hparams]
    exact Text.splitOn_concat_append hbehind hsplit
  have hlen : ws.length ≤ mids.length ∨ ws.length ≤ 1 := hws.imp List.Sublist.length_le fun h => by simp [h]
  refine ⟨⟨?_, ?_⟩, ?_⟩
  · rw [hcore]
    refine List.forall_mem_append.2 ⟨fun w hw => ?_, List.forall_mem_singleton.2 ?_⟩
    · rcases hws with hsub | rfl
      · exact (hmem w (hsub.subset hw)).elim (hp w) fun h => (Text.length_le_of_mem_splitOn h).trans hpathlen
      · simp [List.mem_singleton.1 hw]
    · rcases he with rfl | rfl
      · refine (Text.length_le_of_mem_splitOn (c := .char '/') ?_).trans hu
        rw [core_eq, Text.splitOn_concat_append hbehind hs]
        exact List.mem_append_right _ (List.mem_singleton_self _)
      · rw [core_eq, List.length_append] at hu
        rw [List.nil_append]
        omega
  · rw [hcore, ← List.tail_dropLast, List.dropLast_concat]
    have hown (w : Text) (hw : w ∈ ws.tail) (hne : w ≠ []) : Disk.isOwnName w = true := by
      obtain ⟨hdot, hup⟩ := hplain w (List.mem_of_mem_tail hw)
      exact Disk.isOwnName_iff.2 ⟨not_or.2 ⟨hne, hdot⟩, hup⟩
    rcases hws with hsub | rfl
    · refine hinner.imp (fun hne w hw => hown w hw (hne w (hsub.tail.subset hw))) fun hfew => ?_
      have := hsub.length_le
      rw [List.length_append, List.length_singleton]
      omega
    · exact .inl (List.forall_mem_nil _)
  · rw [hcore, List.length_append, List.length_singleton]
    omega

end Merged

theorem forall_mem_splitOn_of_unslash {P : Text → Prop} (hnil : P []) (h : ∀ w ∈ Text.splitOn '/' (unslash s), P w) :
    ∀ w ∈ Text.splitOn '/' s, P w := by
  unfold unslash at h
  split at h
  · rename_i hs
    obtain ⟨t, rfl⟩ := List.head?_eq_some_iff.1 hs
    rw [Text.splitOn_cons_of_eq rfl]
    exact List.forall_mem_cons.2 ⟨hnil, h⟩
  · exact h

theorem dropWhile_unslash (s : Text) :
    (unslash s).dropWhile (· = .char '/') = s.dropWhile (· = CodePoint.char '/') := by
  unfold unslash
  split
  · rename_i hs
    obtain ⟨t, rfl⟩ := List.head?_eq_some_iff.1 hs
    rfl
  · rfl

theorem length_splitOn_unslash (s : Text) :
    (Text.splitOn '/' s).length ≤ (Text.splitOn '/' (unslash s)).length + 1 := by
  unfold unslash
  split
  · rename_i hs
    obtain ⟨t, rfl⟩ := List.head?_eq_some_iff.1 hs
    rw [Text.splitOn_cons_of_eq rfl]
    rfl
  · exact Nat.le_succ _

end Url
end StylePrune
