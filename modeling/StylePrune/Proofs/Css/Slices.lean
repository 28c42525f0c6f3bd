import StylePrune.Proofs.Css.Extents
import StylePrune.Proofs.Css.Positions
import StylePrune.Proofs.Css.Uses

/-!
The pieces that the reader cuts a sheet into. Rules side by side start at offsets that increase, in the sheet and in
every group; the pieces that nodes keep follow one another in the text, and none runs into the next.
-/

set_option autoImplicit false

namespace StylePrune.Css

namespace Rule

/-- The rules in the block of a group. -/
def group? : Rule → Option (List Rule)
  | .atRule _ keyword _ (some cs) => if Text.asciiLower keyword ∈ groupNames then some (ofComponents cs) else none
  | _ => none

theorem group?_eq_some {r : Rule} {inner : List Rule} (h : r.group? = some inner) :
    ∃ p keyword prelude cs, r = .atRule p keyword prelude (some cs) ∧ Text.asciiLower keyword ∈ groupNames ∧
      inner = ofComponents cs := by
  unfold group? at h
  split at h
  · split at h
    · exact ⟨_, _, _, _, rfl, ‹_›, (Option.some.inj h).symm⟩
    · cases h
  · cases h

theorem not_mem_of_group? {p : Position} {keyword : Text} {prelude : List Component} {content : Option (List Component)}
    (h : group? (.atRule p keyword prelude content) = none) :
    ∀ cs, content = some cs → Text.asciiLower keyword ∉ groupNames := by
  rintro cs rfl hn
  simp [group?, hn] at h

theorem sizeAll_lt_of_group? {r : Rule} {inner : List Rule} (h : r.group? = some inner) : sizeAll inner < r.size := by
  obtain ⟨p, keyword, prelude, cs, rfl, -, rfl⟩ := group?_eq_some h
  have := sizeAll_ofComponents cs
  simp only [size, contentSize, Option.map_some, Option.getD_some]
  omega

end Rule

namespace LinedText

/-- Where rules start, and where the last of them stops. -/
def offsets (src : LinedText) (rules : List Rule) (stop : Nat) : List Nat :=
  rules.map (fun r => src.index r.pos) ++ [stop]

/-- For every group at every depth, where it starts and the offsets of the rules in it. -/
def levels (src : LinedText) (rules : List Rule) (stop : Nat) : List (List Nat) :=
  match rules with
  | [] => []
  | r :: rs =>
    have := r.size_pos
    match h : r.group? with
    | none => src.levels rs stop
    | some inner =>
      have := Rule.sizeAll_lt_of_group? h
      let start := src.index r.pos
      let contentStop := src.contentStop start (src.startOf rs stop)
      (start :: src.offsets inner contentStop) :: (src.levels inner contentStop ++ src.levels rs stop)
termination_by Rule.sizeAll rules
decreasing_by all_goals simp only [Rule.sizeAll]; omega

/-- The pieces of the text, from an offset to an offset, that nodes keep. A rule is cut off at the next one, a group
before its opening brace; what is in a group is cut by its own rules. -/
def cuts (src : LinedText) (rules : List Rule) (stop : Nat) : List (Nat × Nat) :=
  match rules with
  | [] => []
  | r :: rs =>
    have := r.size_pos
    let start := src.index r.pos
    match h : r.group? with
    | none => (start, src.startOf rs stop) :: src.cuts rs stop
    | some inner =>
      have := Rule.sizeAll_lt_of_group? h
      let contentStop := src.contentStop start (src.startOf rs stop)
      (start, src.startOf inner contentStop - 1) :: (src.cuts inner contentStop ++ src.cuts rs stop)
termination_by Rule.sizeAll rules
decreasing_by all_goals simp only [Rule.sizeAll]; omega

variable {src : LinedText} {r : Rule} {rs inner : List Rule} {stop : Nat}

theorem levels_cons_of_none (h : r.group? = none) : src.levels (r :: rs) stop = src.levels rs stop := by
  rw [levels]
  split
  · rfl
  · rename_i h'
    cases h.symm.trans h'

theorem levels_cons_of_some (h : r.group? = some inner) :
    src.levels (r :: rs) stop =
      let contentStop := src.contentStop (src.index r.pos) (src.startOf rs stop)
      (src.index r.pos :: src.offsets inner contentStop) :: (src.levels inner contentStop ++ src.levels rs stop) := by
  rw [levels]
  split
  · rename_i h'
    cases h.symm.trans h'
  · rename_i h'
    obtain rfl := Option.some.inj (h.symm.trans h')
    rfl

theorem cuts_cons_of_none (h : r.group? = none) :
    src.cuts (r :: rs) stop = (src.index r.pos, src.startOf rs stop) :: src.cuts rs stop := by
  rw [cuts]
  split
  · rfl
  · rename_i h'
    cases h.symm.trans h'

theorem cuts_cons_of_some (h : r.group? = some inner) :
    src.cuts (r :: rs) stop =
      let contentStop := src.contentStop (src.index r.pos) (src.startOf rs stop)
      (src.index r.pos, src.startOf inner contentStop - 1) :: (src.cuts inner contentStop ++ src.cuts rs stop) := by
  rw [cuts]
  split
  · rename_i h'
    cases h.symm.trans h'
  · rename_i h'
    obtain rfl := Option.some.inj (h.symm.trans h')
    rfl

/-- Each rule starts before the next one and before the end, and a group before what is in it. -/
inductive Parted (src : LinedText) : List Rule → Nat → Prop where
  | nil {stop : Nat} : Parted src [] stop
  | solo {r : Rule} {rs : List Rule} {stop : Nat} :
      r.group? = none → src.index r.pos < src.startOf rs stop → Parted src rs stop → Parted src (r :: rs) stop
  | group {r : Rule} {rs inner : List Rule} {stop : Nat} :
      r.group? = some inner →
      src.index r.pos < src.startOf inner (src.contentStop (src.index r.pos) (src.startOf rs stop)) →
      Parted src inner (src.contentStop (src.index r.pos) (src.startOf rs stop)) → Parted src rs stop →
      Parted src (r :: rs) stop

namespace Parted

theorem startOf_le (h : src.Parted rs stop) : src.startOf rs stop ≤ stop := by
  induction h with
  | nil => exact Nat.le_refl _
  | solo _ hlt _ ih => exact Nat.le_of_lt (Nat.lt_of_lt_of_le hlt ih)
  | @group r rs inner stop _ hlt _ _ ihInner ih =>
    have := src.contentStop_le (src.index r.pos) (src.startOf rs stop)
    change src.index r.pos ≤ stop
    omega

theorem lt (h : src.Parted (r :: rs) stop) : src.index r.pos < src.startOf rs stop := by
  cases h with
  | solo _ hlt _ => exact hlt
  | group _ hlt hi _ =>
    have := hi.startOf_le
    have := src.contentStop_le (src.index r.pos) (src.startOf rs stop)
    omega

theorem tail (h : src.Parted (r :: rs) stop) : src.Parted rs stop := by
  cases h with
  | solo _ _ h => exact h
  | group _ _ _ h => exact h

theorem mem_offsets (h : src.Parted rs stop) {o : Nat} (ho : o ∈ src.offsets rs stop) :
    src.startOf rs stop ≤ o ∧ o ≤ stop := by
  induction rs with
  | nil =>
    obtain rfl := List.mem_singleton.1 ho
    exact ⟨Nat.le_refl _, Nat.le_refl _⟩
  | cons r rs ih =>
    have hlt := h.lt
    rcases List.mem_cons.1 ho with rfl | ho
    · exact ⟨Nat.le_refl _, h.startOf_le⟩
    · have := ih h.tail ho
      exact ⟨Nat.le_trans (Nat.le_of_lt hlt) this.1, this.2⟩

/-- The offsets of rules side by side increase. -/
theorem pairwise_offsets (h : src.Parted rs stop) : (src.offsets rs stop).Pairwise (· < ·) := by
  induction rs with
  | nil => exact List.pairwise_singleton _ _
  | cons r rs ih =>
    refine List.pairwise_cons.2 ⟨fun o ho => ?_, ih h.tail⟩
    exact Nat.lt_of_lt_of_le h.lt (h.tail.mem_offsets ho).1

theorem levels (h : src.Parted rs stop) :
    ∀ os ∈ src.levels rs stop, os.Pairwise (· < ·) ∧ ∀ o ∈ os, o ≤ stop := by
  induction h with
  | nil => simp [LinedText.levels]
  | solo hg _ _ ih => rwa [levels_cons_of_none hg]
  | @group r rs inner stop hg hlt hi hr ihInner ih =>
    have hstop := src.contentStop_le (src.index r.pos) (src.startOf rs stop)
    have hrs := hr.startOf_le
    have hinner := hi.startOf_le
    rw [levels_cons_of_some hg]
    refine List.forall_mem_cons.2 ⟨⟨?_, ?_⟩, List.forall_mem_append.2 ⟨fun os hos => ?_, ih⟩⟩
    · exact List.pairwise_cons.2 ⟨fun o ho => Nat.lt_of_lt_of_le hlt (hi.mem_offsets ho).1, hi.pairwise_offsets⟩
    · refine List.forall_mem_cons.2 ⟨by omega, fun o ho => ?_⟩
      have := (hi.mem_offsets ho).2
      omega
    · refine ⟨(ihInner os hos).1, fun o ho => ?_⟩
      have := (ihInner os hos).2 o ho
      omega

theorem mem_cuts (h : src.Parted rs stop) {s : Nat × Nat} (hs : s ∈ src.cuts rs stop) :
    src.startOf rs stop ≤ s.1 ∧ s.1 ≤ s.2 ∧ s.2 ≤ stop := by
  induction h with
  | nil => simp [cuts] at hs
  | @solo r rs stop hg hlt hr ih =>
    have hrs := hr.startOf_le
    rw [cuts_cons_of_none hg] at hs
    change src.index r.pos ≤ s.1 ∧ _
    rcases List.mem_cons.1 hs with rfl | hs
    · exact ⟨Nat.le_refl _, Nat.le_of_lt hlt, hrs⟩
    · have := ih hs
      omega
  | @group r rs inner stop hg hlt hi hr ihInner ih =>
    have hstop := src.contentStop_le (src.index r.pos) (src.startOf rs stop)
    have hrs := hr.startOf_le
    have hinner := hi.startOf_le
    rw [cuts_cons_of_some hg] at hs
    change src.index r.pos ≤ s.1 ∧ _
    rcases List.mem_cons.1 hs with rfl | hs
    · exact ⟨Nat.le_refl _, by simp only []; omega, by simp only []; omega⟩
    · rcases List.mem_append.1 hs with hs | hs
      · have := ihInner hs
        omega
      · have := ih hs
        omega

/-- No piece runs into a later one. -/
theorem pairwise_cuts (h : src.Parted rs stop) : (src.cuts rs stop).Pairwise fun s t => s.2 ≤ t.1 := by
  induction h with
  | nil => simp [cuts]
  | solo hg hlt hr ih =>
    rw [cuts_cons_of_none hg]
    exact List.pairwise_cons.2 ⟨fun s hs => (hr.mem_cuts hs).1, ih⟩
  | @group r rs inner stop hg hlt hi hr ihInner ih =>
    have hstop := src.contentStop_le (src.index r.pos) (src.startOf rs stop)
    have hinner := hi.startOf_le
    rw [cuts_cons_of_some hg]
    refine List.pairwise_cons.2 ⟨fun s hs => ?_, List.pairwise_append.2 ⟨ihInner, ih, fun s hs t ht => ?_⟩⟩
    · simp only []
      rcases List.mem_append.1 hs with hs | hs
      · have := (hi.mem_cuts hs).1
        omega
      · have := (hr.mem_cuts hs).1
        omega
    · have := (hi.mem_cuts hs).2.2
      have := (hr.mem_cuts ht).1
      omega

end Parted

end LinedText

namespace Rule

/-- A qualified rule runs to its first block in braces, or without one to the end. -/
theorem takeQualified_cases (cs : List Component) :
    takeQualified cs = (cs, none, []) ∨
      ∃ before p content rest, cs = before ++ .block p .curly content :: rest ∧
        takeQualified cs = (before, some content, rest) := by
  fun_induction takeQualified cs with
  | case1 => exact .inl rfl
  | case2 p content cs => exact .inr ⟨[], p, content, cs, rfl, rfl⟩
  | case3 c cs _ r ih =>
    refine ih.imp (fun h => ?_) ?_
    · simp only [r, h]
    · rintro ⟨before, p, content, rest, rfl, h⟩
      exact ⟨c :: before, p, content, rest, rfl, by simp only [r, h]⟩

theorem mem_of_takeAtRule {cs content : List Component} (h : (takeAtRule cs).2.1 = some content) :
    ∃ p, .block p .curly content ∈ cs := by
  fun_induction takeAtRule cs with
  | case1 => cases h
  | case2 p content cs =>
    obtain rfl := Option.some.inj h
    exact ⟨p, List.mem_cons_self⟩
  | case3 => cases h
  | case4 c cs _ _ r ih =>
    obtain ⟨p, hp⟩ := ih h
    exact ⟨p, List.mem_cons_of_mem c hp⟩

theorem ofQualified_of_takeQualified {c : Component} {cs before content rest : List Component}
    (h : takeQualified (c :: cs) = (before, some content, rest)) : ofQualified c cs = .qualified c.pos before content := by
  simp only [ofQualified, h]

/-- A rule without block has the position of its last component. -/
theorem exists_pos_of_takeQualified {c : Component} {cs : List Component}
    (h : takeQualified (c :: cs) = (c :: cs, none, [])) : ∃ d ∈ c :: cs, ofQualified c cs = .unfinished d.pos := by
  refine ⟨((c :: cs).getLast?.getD c), ?_, by simp only [ofQualified, h]⟩
  rw [List.getLast?_eq_some_getLast (List.cons_ne_nil c cs)]
  exact List.getLast_mem _

/-- Rules of components have positions of components. -/
theorem exists_pos_of_ofComponents {cs : List Component} {r : Rule} (h : r ∈ ofComponents cs) : ∃ d ∈ cs, r.pos = d.pos := by
  fun_induction ofComponents cs with
  | case1 => cases h
  | case2 c cs _ ih =>
    rcases List.mem_cons.1 h with rfl | h
    · exact ⟨c, List.mem_cons_self, rfl⟩
    · obtain ⟨d, hd, hp⟩ := ih h
      exact ⟨d, List.mem_cons_of_mem c hd, hp⟩
  | case3 c cs _ _ ih =>
    obtain ⟨d, hd, hp⟩ := ih h
    exact ⟨d, List.mem_cons_of_mem c hd, hp⟩
  | case4 cs p name _ _ _ ih =>
    rcases List.mem_cons.1 h with rfl | h
    · exact ⟨_, List.mem_cons_self, rfl⟩
    · obtain ⟨d, hd, hp⟩ := ih h
      exact ⟨d, List.mem_cons_of_mem _ ((takeAtRule_suffix cs).subset hd), hp⟩
  | case5 cs c _ _ _ _ ih =>
    rcases List.mem_cons.1 h with rfl | h
    · rcases takeQualified_cases (c :: cs) with hq | ⟨before, p, content, rest, -, hq⟩
      · obtain ⟨d, hd, he⟩ := exists_pos_of_takeQualified hq
        exact ⟨d, hd, by rw [he]; rfl⟩
      · exact ⟨c, List.mem_cons_self, by rw [ofQualified_of_takeQualified hq]; rfl⟩
    · obtain ⟨d, hd, hp⟩ := ih h
      exact ⟨d, (takeQualified_suffix (c :: cs)).subset hd, hp⟩

end Rule

namespace LinedText

variable {src : LinedText} {cs ds : List Component} {c d : Component} {k : Option Bracket} {i j e n : Nat}

theorem startOf_ofComponents (src : LinedText) (cs : List Component) (stop : Nat) :
    src.startOf (Rule.ofComponents cs) stop = stop ∨
      ∃ d ∈ cs, src.startOf (Rule.ofComponents cs) stop = src.index d.pos := by
  cases h : Rule.ofComponents cs with
  | nil => exact .inl rfl
  | cons r rs =>
    obtain ⟨d, hd, hp⟩ := Rule.exists_pos_of_ofComponents (h ▸ List.mem_cons_self)
    exact .inr ⟨d, hd, congrArg src.index hp⟩

theorem lt_startOf_ofComponents {stop : Nat} (hd : ∀ d ∈ cs, n < src.index d.pos) (hs : n < stop) :
    n < src.startOf (Rule.ofComponents cs) stop := by
  rcases src.startOf_ofComponents cs stop with h | ⟨d, hm, h⟩
  · rwa [h]
  · exact h ▸ hd d hm

theorem Lies.exists_starts (h : src.Lies k i cs e) (hd : d ∈ cs) : ∃ m, i ≤ m ∧ m < e ∧ src.Starts k d.pos m := by
  induction cs generalizing i with
  | nil => cases hd
  | cons c cs ih =>
    rcases List.mem_cons.1 hd with rfl | hd
    · exact ⟨i, Nat.le_refl i, h.lt, h.starts⟩
    · obtain ⟨m, him, h⟩ := h.tail
      obtain ⟨m', hm', hs⟩ := ih h hd
      exact ⟨m', Nat.le_trans him hm', hs⟩

/-- What lies from `i` on starts there or later, and before what it reaches. -/
theorem Lies.index_mem (h : src.Lies k i cs e) (hj : src.Reaches k e j) (hd : d ∈ cs) :
    i ≤ src.index d.pos ∧ src.index d.pos < j := by
  obtain ⟨m, him, hme, hs⟩ := h.exists_starts hd
  exact ⟨hs.index ▸ him, hs.index ▸ hj.lt hs hme⟩

/-- Tokens of components at every depth stand in the order of the components. -/
def Ascends (src : LinedText) (cs : List Component) : Prop :=
  ((placesAll cs).map fun t => (src.index t.1, t.2)).Pairwise Precedes

theorem Ascends.of_sublist (h : src.Ascends cs) (hs : (placesAll ds).Sublist (placesAll cs)) : src.Ascends ds :=
  h.sublist (hs.map _)

theorem placesAll_sublist_of_suffix (h : ds <:+ cs) : (placesAll ds).Sublist (placesAll cs) := by
  obtain ⟨xs, rfl⟩ := h
  rw [placesAll_append]
  exact List.sublist_append_right _ _

theorem placesAll_sublist_of_mem_block {p : Position} {b : Bracket} (h : .block p b ds ∈ cs) :
    (placesAll ds).Sublist (placesAll cs) := by
  induction cs with
  | nil => cases h
  | cons c cs ih =>
    rw [placesAll]
    rcases List.mem_cons.1 h with rfl | h
    · exact ((List.sublist_cons_self _ _).trans (List.sublist_append_left _ _))
    · exact (ih h).trans (List.sublist_append_right _ _)

theorem places_eq_cons (c : Component) : ∃ ts, c.places = (c.pos, c.first) :: ts := by
  cases c <;> exact ⟨_, rfl⟩

/-- Components side by side stand in order. -/
theorem Ascends.pairwise (h : src.Ascends cs) :
    cs.Pairwise fun c d => Precedes (src.index c.pos, c.first) (src.index d.pos, d.first) := by
  have mem {d : Component} {ds : List Component} (hd : d ∈ ds) : (d.pos, d.first) ∈ placesAll ds := by
    obtain ⟨xs, ys, rfl⟩ := List.append_of_mem hd
    obtain ⟨ts, ht⟩ := places_eq_cons d
    simp [placesAll, ht]
  induction cs with
  | nil => exact .nil
  | cons c cs ih =>
    refine List.pairwise_cons.2 ⟨fun d hd => ?_, ih (h.of_sublist (placesAll_sublist_of_suffix (List.suffix_cons c cs)))⟩
    obtain ⟨ts, ht⟩ := places_eq_cons c
    rw [Ascends, placesAll, ht, List.cons_append, List.map_cons] at h
    exact (List.pairwise_cons.1 h).1 _ (List.mem_map.2 ⟨(d.pos, d.first), List.mem_append_right ts (mem hd), rfl⟩)

theorem Ascends.lt (h : src.Ascends (c :: cs)) (hc : ¬ c.first.IsCut) (hd : d ∈ cs) : src.index c.pos < src.index d.pos :=
  ((List.pairwise_cons.1 h.pairwise).1 d hd).2 hc

/-- What stands behind a block stands behind all before the block. -/
theorem Ascends.lt_of_block {before rest content : List Component} {p : Position} {b : Bracket}
    (h : src.Ascends (before ++ .block p b content :: rest)) (hc : c ∈ before ++ [.block p b content]) (hd : d ∈ rest) :
    src.index c.pos < src.index d.pos := by
  obtain ⟨-, hb, hcross⟩ := List.pairwise_append.1 h.pairwise
  have hblock := ((List.pairwise_cons.1 hb).1 d hd).2 (by rintro ⟨x, hx⟩; cases hx)
  rcases List.mem_append.1 hc with hc | hc
  · exact Nat.lt_of_le_of_lt (hcross c hc _ List.mem_cons_self).1 hblock
  · obtain rfl := List.mem_singleton.1 hc
    exact hblock

section Parting

/-- The rules of components that lie before `e` are parted up to what they reach. -/
def Parts (src : LinedText) (cs : List Component) : Prop :=
  ∀ {k : Option Bracket} {i e j : Nat}, src.Lies k i cs e → src.Reaches k e j → src.Ascends cs →
    src.Parted (Rule.ofComponents cs) j

theorem parted_trivia (hcs : src.Parts cs) (ht : c.isTrivia = true) (h : src.Lies k i (c :: cs) e) (hj : src.Reaches k e j)
    (ha : src.Ascends (c :: cs)) : src.Parted (Rule.ofComponents (c :: cs)) j := by
  have hc : ¬ c.first.IsCut := by
    rintro ⟨x, hx⟩
    cases x <;> (unfold Component.isTrivia at ht; split at ht <;> first | cases hx | cases ht)
  obtain ⟨m, -, hm⟩ := h.tail
  have hrest := hcs hm hj (ha.of_sublist (placesAll_sublist_of_suffix (List.suffix_cons c cs)))
  rw [Rule.ofComponents_of_isTrivia ht]
  refine .solo rfl (lt_startOf_ofComponents (fun d hd => ha.lt hc hd) ?_) hrest
  exact (h.index_mem hj List.mem_cons_self).2

theorem parted_atRule {p : Position} {name : Text} (hcs : ∀ ds, Component.size.sizeAll ds ≤ Component.size.sizeAll cs → src.Parts ds)
    (h : src.Lies k i (.leaf p (.atKeyword name) :: cs) e) (hj : src.Reaches k e j)
    (ha : src.Ascends (.leaf p (.atKeyword name) :: cs)) :
    src.Parted (Rule.ofComponents (.leaf p (.atKeyword name) :: cs)) j := by
  have hp := h.index_mem hj List.mem_cons_self
  have hi : src.index p = i := h.starts.index
  have hc : ¬ (Lexeme.leaf (.atKeyword name)).IsCut := by
    rintro ⟨x, hx⟩
    cases x <;> cases hx
  have hsuffix := Rule.takeAtRule_suffix cs
  have hsize := Rule.takeAtRule_size cs
  obtain ⟨m, him, hl⟩ := h.tail
  obtain ⟨m', hm', hl, hb⟩ := hl.takeAtRule
  have hrest := hcs (Rule.takeAtRule cs).2.2 (by omega) hl hj
    (ha.of_sublist (placesAll_sublist_of_suffix (hsuffix.trans (List.suffix_cons _ cs))))
  have hnext : src.index p < src.startOf (Rule.ofComponents (Rule.takeAtRule cs).2.2) j :=
    lt_startOf_ofComponents (fun d hd => ha.lt hc (hsuffix.subset hd)) hp.2
  rw [Rule.ofComponents_of_atKeyword]
  cases hg : Rule.group? (.atRule p name (Rule.takeAtRule cs).1 (Rule.takeAtRule cs).2.1) with
  | none => exact .solo hg hnext hrest
  | some inner =>
    obtain ⟨_, _, _, content, he, -, rfl⟩ := Rule.group?_eq_some hg
    obtain ⟨-, -, -, hcontent⟩ := Rule.atRule.inj he
    obtain ⟨q, hq, hqm, hb⟩ := hb content hcontent
    obtain ⟨b, hmem⟩ := Rule.mem_of_takeAtRule hcontent
    rw [hcontent] at hsize
    simp only [Rule.contentSize, Option.map_some, Option.getD_some] at hsize
    have hmin : min m' j ≤ src.startOf (Rule.ofComponents (Rule.takeAtRule cs).2.2) j := by
      rcases src.startOf_ofComponents (Rule.takeAtRule cs).2.2 j with h' | ⟨d, hd, h'⟩
      · omega
      · have := (hl.index_mem hj hd).1
        omega
    obtain ⟨e', hlies, -, hreach, hstop⟩ := hb.exists_reaches (i := i) hl hqm hj hmin hrest.startOf_le
    rw [← hi] at hreach hstop
    have hinner := hcs content (by omega) hlies hreach
      (ha.of_sublist (placesAll_sublist_of_mem_block (List.mem_cons_of_mem _ hmem)))
    refine .group hg (lt_startOf_ofComponents (fun d hd => ?_) ?_) hinner hrest
    · have := (hlies.index_mem hreach hd).1
      change src.index p < _
      omega
    · change src.index p < _
      exact Nat.lt_of_lt_of_le (by omega) hstop

theorem parted_qualified (hcs : src.Parts (Rule.takeQualified (c :: cs)).2.2) (ht : c.isTrivia = false)
    (hm : c.isHtmlMark = false) (hk : ∀ p name, c ≠ .leaf p (.atKeyword name)) (h : src.Lies k i (c :: cs) e)
    (hj : src.Reaches k e j) (ha : src.Ascends (c :: cs)) : src.Parted (Rule.ofComponents (c :: cs)) j := by
  rw [Rule.ofComponents_of_ne ht hm hk]
  obtain ⟨m, -, hrest⟩ := h.takeQualified
  have hrest := hcs hrest hj (ha.of_sublist (placesAll_sublist_of_suffix (Rule.takeQualified_suffix (c :: cs))))
  rcases Rule.takeQualified_cases (c :: cs) with hq | ⟨before, p, content, rest, he, hq⟩
  · obtain ⟨d, hd, hr⟩ := Rule.exists_pos_of_takeQualified hq
    rw [hq] at hrest ⊢
    rw [hr]
    refine .solo rfl ?_ hrest
    rw [startOf_nil]
    exact (h.index_mem hj hd).2
  · rw [hq] at hrest ⊢
    rw [Rule.ofQualified_of_takeQualified hq]
    refine .solo rfl (lt_startOf_ofComponents (fun d hd => ?_) (h.index_mem hj List.mem_cons_self).2) hrest
    rw [he] at ha
    have hc : c ∈ before ++ [.block p .curly content] := by
      cases before with
      | nil => simp [(List.cons.inj he).1]
      | cons b before => simp [(List.cons.inj he).1]
    exact ha.lt_of_block hc hd

/-- The rules of components are parted, in every group as on the outside. -/
theorem parts (src : LinedText) (cs : List Component) : src.Parts cs := by
  induction hsize : Component.size.sizeAll cs using Nat.strongRecOn generalizing cs with
  | ind n ih =>
  subst hsize
  intro k i e j h hj ha
  cases cs with
  | nil =>
    rw [Rule.ofComponents]
    exact .nil
  | cons c cs =>
    have hlt : Component.size.sizeAll cs < Component.size.sizeAll (c :: cs) := by
      have hc := c.size_pos
      simp only [Component.size.sizeAll]
      omega
    by_cases hm : c.isHtmlMark = true
    · obtain ⟨m, -, hl⟩ := h.tail
      rw [Rule.ofComponents_of_isHtmlMark hm]
      exact ih _ hlt cs rfl hl hj (ha.of_sublist (placesAll_sublist_of_suffix (List.suffix_cons c cs)))
    by_cases ht : c.isTrivia = true
    · exact parted_trivia (ih _ hlt cs rfl) ht h hj ha
    by_cases hk : ∃ p name, c = .leaf p (.atKeyword name)
    · obtain ⟨p, name, rfl⟩ := hk
      exact parted_atRule (fun ds hds => ih _ (by omega) ds rfl) h hj ha
    · exact parted_qualified (ih _ (Rule.takeQualified_size_lt c cs) _ rfl) (by simpa using ht) (by simpa using hm)
        (fun p name hc => hk ⟨p, name, hc⟩) h hj ha

end Parting

end LinedText

section Keeping

mutual
/-- The text that a node keeps of its source: all that it writes but the braces of groups. -/
def Node.kept : Node → Text
  | .block b => b.leading ++ b.source.getD []
  | .group g cs trailing => g.leading ++ g.head ++ keptAll cs ++ trailing
  | .statement s => s.leading ++ s.source

def keptAll : List Node → Text
  | [] => []
  | n :: ns => n.kept ++ keptAll ns
end

def Sheet.kept (s : Sheet) : Text := keptAll s.children ++ s.trailing

namespace LinedText

variable {src : LinedText} {rs : List Rule} {stop : Nat} {pending tr : Text} {ns : List Node}

/-- The text in the pieces that rules are cut into. -/
def pieces (src : LinedText) (rules : List Rule) (stop : Nat) : Text :=
  (src.cuts rules stop).flatMap fun s => src.slice s.1 s.2

theorem pieces_nil : src.pieces [] stop = [] := by simp [pieces, cuts]

theorem pieces_cons_of_none {r : Rule} (h : r.group? = none) :
    src.pieces (r :: rs) stop = src.slice (src.index r.pos) (src.startOf rs stop) ++ src.pieces rs stop := by
  rw [pieces, cuts_cons_of_none h, List.flatMap_cons]
  rfl

theorem pieces_cons_of_some {r : Rule} {inner : List Rule} (h : r.group? = some inner) :
    src.pieces (r :: rs) stop =
      let contentStop := src.contentStop (src.index r.pos) (src.startOf rs stop)
      src.slice (src.index r.pos) (src.startOf inner contentStop - 1) ++ src.pieces inner contentStop ++
        src.pieces rs stop := by
  rw [pieces, cuts_cons_of_some h, List.flatMap_cons, List.flatMap_append, ← List.append_assoc]
  rfl

/-- A node without children keeps the piece of its rule. -/
theorem keptAll_solo {r : Rule} {n : Node} (hg : r.group? = none)
    (hn : n.kept = pending ++ src.slice (src.index r.pos) (src.startOf rs stop))
    (ih : ∀ {ns : List Node} {tr : Text}, src.read rs [] stop = .ok (ns, tr) → keptAll ns ++ tr = src.pieces rs stop)
    (h : ((src.read rs [] stop).map fun rest => (n :: rest.1, rest.2)) = .ok (ns, tr)) :
    keptAll ns ++ tr = pending ++ src.pieces (r :: rs) stop := by
  obtain ⟨ms, rfl, hms⟩ := read_map_eq_ok h
  rw [pieces_cons_of_none hg, keptAll, hn, List.append_assoc, ih hms, List.append_assoc]

theorem kept_statementOf (leading source name : Text) (prelude : List Component) :
    (Node.statement (statementOf leading source name prelude)).kept = leading ++ source := by
  unfold statementOf
  split <;> rfl

/-- What nodes keep is what was pending and the pieces of their rules. -/
theorem keptAll_of_read (h : src.read rs pending stop = .ok (ns, tr)) :
    keptAll ns ++ tr = pending ++ src.pieces rs stop := by
  induction hsize : Rule.sizeAll rs using Nat.strongRecOn generalizing rs pending stop ns tr with
  | ind n ih =>
  subst hsize
  cases rs with
  | nil =>
    rw [read] at h
    obtain ⟨rfl, rfl⟩ := Prod.mk.inj (Except.ok.inj h)
    rw [pieces_nil, keptAll, List.append_nil, List.nil_append]
  | cons r rs =>
    have hr := r.size_pos
    have hlt : Rule.sizeAll rs < Rule.sizeAll (r :: rs) := by
      simp only [Rule.sizeAll]
      omega
    have rest {ns : List Node} {tr : Text} (h : src.read rs [] stop = .ok (ns, tr)) :
        keptAll ns ++ tr = src.pieces rs stop := (ih _ hlt h rfl).trans (List.nil_append _)
    cases r with
    | trivia p =>
      rw [read_trivia] at h
      rw [ih _ hlt h rfl, pieces_cons_of_none rfl, List.append_assoc]
      rfl
    | unfinished p =>
      rw [read_unfinished] at h
      cases h
    | qualified p prelude content =>
      cases hx : prelude.findSome? Component.error? with
      | some x =>
        rw [read_refused hx] at h
        cases h
      | none =>
        rw [read_qualified hx] at h
        exact keptAll_solo rfl rfl rest h
    | atRule p keyword prelude content =>
      cases hg : Rule.group? (.atRule p keyword prelude content) with
      | none =>
        rw [read_statement (Rule.not_mem_of_group? hg)] at h
        exact keptAll_solo hg (kept_statementOf ..) rest h
      | some inner =>
        obtain ⟨_, _, _, cs, he, hn, rfl⟩ := Rule.group?_eq_some hg
        obtain ⟨rfl, rfl, rfl, rfl⟩ := Rule.atRule.inj he
        rw [read_group hn] at h
        simp only [] at h
        split at h
        · cases h
        · rename_i children trailing hc
          obtain ⟨ms, rfl, hms⟩ := read_map_eq_ok h
          have hinner := ih _ (by have := Rule.sizeAll_lt_of_group? hg; simp only [Rule.sizeAll]; omega) hc rfl
          rw [List.nil_append] at hinner
          rw [pieces_cons_of_some hg, keptAll, Node.kept]
          simp only [Rule.pos, ← hinner, ← rest hms, List.append_assoc]

end LinedText

end Keeping

namespace LinedText

theorem reaches_all (T : Text) : (ofText T).Reaches none T.length T.length :=
  ⟨fun y h₁ h₂ => by omega, fun _ => Nat.le_refl _, Nat.le_refl _⟩

theorem ascends_nest {T : Text} (hT : ∀ c ∈ T, c ≠ '\r' ∧ c ≠ '\x0c') : (ofText T).Ascends (nest (lex T)) := by
  have hs := (placesAll_nest_lex_sublist T).map fun t => ((ofText T).index t.1, t.2)
  rw [(map_index_lex hT).1] at hs
  exact (pairwise_tokensFrom 0 (seen T)).sublist hs

theorem parted_nest {T : Text} (hT : ∀ c ∈ T, c ≠ '\r' ∧ c ≠ '\x0c') :
    (ofText T).Parted (Rule.ofComponents (nest (lex T))) T.length :=
  parts _ _ (lies_nest hT) (reaches_all T) (ascends_nest hT)

end LinedText

/-- Lines and columns map back to the text with newlines in one form: every token to the offset at which it is read,
and every component, at any depth, has the position of a token. So the rules of the sheet, and those of each group
behind the group itself, start at offsets that increase up to their end, and the pieces of the text between them that
nodes keep lie in the text and apart from each other. -/
theorem Sheet.offsets_and_cuts (css : Text) :
    let text := normalizeNewlines css
    let src := LinedText.ofText text
    let rules := Rule.ofComponents (nest (lex text))
    ((lex text).map (fun t => (src.index t.1, t.2)) = tokensFrom 0 (seen text) ∧
      ∀ t ∈ lex text, src.HasPosition t.1) ∧
    (placesAll (nest (lex text))).Sublist (lex text) ∧
    (∀ os ∈ src.offsets rules text.length :: src.levels rules text.length,
      os.Pairwise (· < ·) ∧ ∀ o ∈ os, o ≤ text.length) ∧
    (∀ s ∈ src.cuts rules text.length, s.1 ≤ s.2 ∧ s.2 ≤ text.length) ∧
    (src.cuts rules text.length).Pairwise (fun s t => s.2 ≤ t.1) ∧
    ∀ sheet, Sheet.parse css = .ok sheet → sheet.kept = src.pieces rules text.length := by
  intro text src rules
  have hclean := clean_normalizeNewlines css
  have hp : src.Parted rules text.length := LinedText.parted_nest hclean
  refine ⟨LinedText.map_index_lex hclean, placesAll_nest_lex_sublist text,
    List.forall_mem_cons.2 ⟨⟨hp.pairwise_offsets, fun o ho => (hp.mem_offsets ho).2⟩, hp.levels⟩,
    fun s hs => (hp.mem_cuts hs).2, hp.pairwise_cuts, fun sheet hs => ?_⟩
  obtain ⟨cs, hc, hr⟩ := Sheet.parse_eq_ok_iff.1 hs
  obtain rfl : cs = nest (lex text) := by
    unfold components at hc
    split at hc
    · cases hc
    · exact (Except.ok.inj hc).symm
  rw [Sheet.kept, LinedText.keptAll_of_read hr, List.nil_append]

/-- Every form of a newline, one of them inside a string and one inside a comment, and a rule in a group. -/
def mixedLines : Text := "a\x7bb:\"x\\\r\ny\"\x7d\r/* 1\x0c2 */@media m\x7b\n c\x7b\x7d\r\n\x7d"

theorem map_kept_mixedLines : (Sheet.parse mixedLines).map Sheet.kept =
    .ok "a\x7bb:\"x\\\ny\"\x7d\n/* 1\n2 */@media m\n c\x7b\x7d\n" := by cbv

/-- Without the braces of the group all text is in the pieces, newlines in one form. -/
theorem pieces_mixedLines : (∃ sheet, Sheet.parse mixedLines = .ok sheet) ∧
    let text := normalizeNewlines mixedLines
    (LinedText.ofText text).pieces (Rule.ofComponents (nest (lex text))) text.length =
      "a\x7bb:\"x\\\ny\"\x7d\n/* 1\n2 */@media m\n c\x7b\x7d\n" := by
  obtain ⟨sheet, hp, hk⟩ := exists_of_map_eq_ok map_kept_mixedLines
  refine ⟨⟨sheet, hp⟩, ?_⟩
  intro text
  rw [← hk]
  exact ((Sheet.offsets_and_cuts mixedLines).2.2.2.2.2 sheet hp).symm

end StylePrune.Css
