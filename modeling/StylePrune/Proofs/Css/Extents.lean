import StylePrune.Proofs.Css.Layout
import StylePrune.Proofs.Css.Outline

/-!
Where rules and the contents of groups start and end in the text: what the reader takes for the end of a
group, and what stands before the first rule of one.
-/

set_option autoImplicit false

namespace StylePrune.Css

def leadsWithMark (cs : List Component) : Bool := cs.head?.any Component.isHtmlMark

/-- The text of a group, and what is in its braces. -/
structure Enclosure where
  text : Text
  content : List Component

/-- The text ends with a brace, and none of the marks that count for nothing stands behind the other brace. -/
def Enclosure.IsTight (g : Enclosure) : Prop :=
  Text.endsWith g.text ['\x7d'] = true ∧ leadsWithMark g.content = false

namespace Rule

theorem takeQualified_size_lt (c : Component) (cs : List Component) :
    Component.size.sizeAll (takeQualified (c :: cs)).2.2 < Component.size.sizeAll (c :: cs) := by
  have hc := c.size_pos
  simp only [Component.size.sizeAll]
  unfold takeQualified
  split
  · rename_i he
    cases he
  · rename_i he
    obtain ⟨rfl, rfl⟩ := List.cons.inj he
    simp only []
    omega
  · rename_i he
    obtain ⟨rfl, rfl⟩ := List.cons.inj he
    have := takeQualified_size cs
    simp only []
    omega

end Rule

theorem Rule.size_pos (r : Rule) : 0 < r.size := by
  cases r <;> simp only [Rule.size] <;> omega

namespace LinedText

/-- The groups that rules make, at every depth. -/
def groups (src : LinedText) (rules : List Rule) (stop : Nat) : List Enclosure :=
  match rules with
  | [] => []
  | .atRule p keyword _ (some cs) :: rs =>
    if Text.asciiLower keyword ∈ groupNames then
      let next := src.startOf rs stop
      ⟨src.slice (src.index p) next, cs⟩ ::
        (src.groups (Rule.ofComponents cs) (src.contentStop (src.index p) next) ++ src.groups rs stop)
    else src.groups rs stop
  | r :: rs =>
    have := r.size_pos
    src.groups rs stop
termination_by Rule.sizeAll rules
decreasing_by
  all_goals simp only [Rule.sizeAll]
  · have := Rule.sizeAll_ofComponents cs
    simp only [Rule.size, Rule.contentSize, Option.map_some, Option.getD_some]
    omega
  · simp only [Rule.size]
    omega
  · simp only [Rule.size]
    omega
  · omega

variable {src : LinedText} {rs : List Rule} {p : Position} {stop : Nat}

theorem groups_nil : src.groups (Rule.ofComponents []) stop = [] := by
  rw [Rule.ofComponents, groups]

theorem groups_cons_of_ne {r : Rule} (h : ∀ p keyword prelude cs, r = .atRule p keyword prelude (some cs) →
    Text.asciiLower keyword ∉ groupNames) : src.groups (r :: rs) stop = src.groups rs stop := by
  rw [groups.eq_def src (r :: rs)]
  cases r with
  | atRule p keyword prelude content =>
    cases content with
    | none => rfl
    | some cs => exact if_neg (h p keyword prelude cs rfl)
  | _ => rfl

theorem groups_group {keyword : Text} {prelude cs : List Component} (h : Text.asciiLower keyword ∈ groupNames) :
    src.groups (.atRule p keyword prelude (some cs) :: rs) stop =
      ⟨src.slice (src.index p) (src.startOf rs stop), cs⟩ ::
        (src.groups (Rule.ofComponents cs) (src.contentStop (src.index p) (src.startOf rs stop)) ++
          src.groups rs stop) := by
  rw [groups, if_pos h]

/-- Components that lie up to `e` start before `j`: from there on a brace may only count for the one of an outer
level. -/
structure Reaches (src : LinedText) (k : Option Bracket) (e j : Nat) : Prop where
  braces : ∀ x, j ≤ x → x < e → src.Has x Bracket.curly.closer
  outside : k ≠ some .curly → e ≤ j
  le : j ≤ src.text.length

/-- Reading stops at `j` in components that lie up to `e`. A brace before `e` may count for the one of an outer
level; what follows `e` ends with no brace. -/
structure Halts (src : LinedText) (k : Option Bracket) (e j : Nat) : Prop where
  braces : ∀ x, j ≤ x → x < e → src.Has x Bracket.curly.closer
  outside : k ≠ some .curly → e ≤ j
  behind : e < j → ¬ src.Has (j - 1) Bracket.curly.closer
  le : j ≤ src.text.length

theorem MarkEndsAt.not_has {i : Nat} (h : src.MarkEndsAt i) {c : CodePoint} (h₁ : c ≠ '-') (h₂ : c ≠ '>') :
    ¬ src.Has (i - 1) c := by
  rcases h with ⟨-, h | h⟩
  · exact fun hc => h₁ (hc.unique h)
  · exact fun hc => h₂ (hc.unique h)

section Starting

variable {k : Option Bracket} {cs : List Component} {c : Component} {i j e : Nat} {pending : Text} {x : List Node × Text}

theorem Halts.reaches (hj : src.Halts k e j) : src.Reaches k e j := ⟨hj.braces, hj.outside, hj.le⟩

theorem Reaches.lt {p : Position} (hj : src.Reaches k e j) (h : src.Starts k p i) (hi : i < e) : i < j := by
  by_cases hk : k = some .curly
  · by_contra hl
    exact h.head .curly hk (hj.braces i (by omega) hi)
  · have := hj.outside hk
    omega

theorem Halts.lt (hj : src.Halts k e j) (h : src.Lies k i (c :: cs) e) : i < j := hj.reaches.lt h.starts h.lt

theorem startOf_unmarked (h : src.Lies k i (c :: cs) e) (hc : c.isHtmlMark = false)
    (hr : src.read (Rule.ofComponents (c :: cs)) pending j = .ok x) (l : Nat) :
    src.startOf (Rule.ofComponents (c :: cs)) l = i := by
  obtain ⟨h₁, h₂⟩ := Bool.or_eq_false_iff.1 hc
  obtain ⟨r, rs, he, hp⟩ := Rule.ofComponents_cons h₁ h₂ cs
  rw [he] at hr ⊢
  rcases hp with hp | ⟨q, rfl⟩
  · rw [startOf, hp, h.starts.index]
  · rw [read_unfinished] at hr
    cases hr

theorem startOf_le (h : src.Lies k i cs e) (hj : src.Halts k e j)
    (hr : src.read (Rule.ofComponents cs) pending j = .ok x) : src.startOf (Rule.ofComponents cs) j ≤ j := by
  induction cs generalizing i with
  | nil => exact Nat.le_of_eq (startOf_nil src j)
  | cons c cs ih =>
    by_cases hc : c.isHtmlMark = true
    · obtain ⟨m, -, h⟩ := h.tail
      rw [Rule.ofComponents_of_isHtmlMark hc] at hr ⊢
      exact ih h hr
    · rw [startOf_unmarked h (by simpa using hc) hr]
      exact Nat.le_of_lt (hj.lt h)

theorem le_startOf (h : src.Lies k i cs e) (hr : src.read (Rule.ofComponents cs) pending j = .ok x) {l : Nat}
    (hi : l ≤ i) (hj : l ≤ j) : l ≤ src.startOf (Rule.ofComponents cs) j := by
  induction cs generalizing i with
  | nil => rwa [startOf_nil]
  | cons c cs ih =>
    by_cases hc : c.isHtmlMark = true
    · obtain ⟨m, hm, h⟩ := h.tail
      rw [Rule.ofComponents_of_isHtmlMark hc] at hr ⊢
      exact ih h hr (Nat.le_trans hi hm)
    · rwa [startOf_unmarked h (by simpa using hc) hr]

theorem Lies.mark (h : src.Lies k i (c :: cs) e) (hc : c.isHtmlMark = true) :
    ∃ m, i < m ∧ src.MarkEndsAt m ∧ src.Lies k m cs e := by
  cases h with
  | leaf _ _ _ hm h => exact ⟨_, (hm hc).1, (hm hc).2, h⟩
  | @closed _ p h => cases h <;> cases hc
  | @unclosed _ p h => cases h <;> cases hc

/-- Behind leading marks, the character before the first rule is the end of a mark. -/
theorem markEndsAt_startOf (h : src.Lies k i cs e) (hj : src.Halts k e j)
    (hr : src.read (Rule.ofComponents cs) pending j = .ok x) (hm : leadsWithMark cs = true) :
    i < src.startOf (Rule.ofComponents cs) j ∧
      (src.MarkEndsAt (src.startOf (Rule.ofComponents cs) j) ∨ e < j ∧ src.startOf (Rule.ofComponents cs) j = j) := by
  induction cs generalizing i with
  | nil => cases hm
  | cons c cs ih =>
    have hc : c.isHtmlMark = true := hm
    obtain ⟨m, him, hme, h⟩ := h.mark hc
    rw [Rule.ofComponents_of_isHtmlMark hc] at hr ⊢
    cases cs with
    | nil =>
      obtain rfl : m = e := by cases h; rfl
      have hle : m ≤ j := by
        by_contra hl
        exact hme.not_has (by decide) (by decide) (hj.braces (m - 1) (by omega) (by omega))
      rw [startOf_nil]
      rcases Nat.lt_or_eq_of_le hle with hl | rfl
      · exact ⟨by omega, .inr ⟨hl, rfl⟩⟩
      · exact ⟨him, .inl hme⟩
    | cons d ds =>
      by_cases hd : d.isHtmlMark = true
      · obtain ⟨hl, ho⟩ := ih h hr hd
        exact ⟨by omega, ho⟩
      · rw [startOf_unmarked h (by simpa using hd) hr]
        exact ⟨him, .inl hme⟩

/-- What ends with a brace ends where the next component starts. -/
theorem startOf_le_of_closer (h : src.Lies k i cs e) (hj : src.Halts k e j)
    (hr : src.read (Rule.ofComponents cs) pending j = .ok x)
    (hb : src.Has (src.startOf (Rule.ofComponents cs) j - 1) Bracket.curly.closer) :
    src.startOf (Rule.ofComponents cs) j ≤ i := by
  cases cs with
  | nil =>
    rw [startOf_nil] at hb ⊢
    cases h
    by_contra hl
    exact hj.behind (by omega) hb
  | cons c cs =>
    by_cases hc : c.isHtmlMark = true
    · exfalso
      obtain ⟨-, hm | ⟨hl, he⟩⟩ := markEndsAt_startOf h hj hr hc
      · exact hm.not_has (by decide) (by decide) hb
      · exact hj.behind hl (he ▸ hb)
    · exact Nat.le_of_eq (startOf_unmarked h (by simpa using hc) hr j)

end Starting

section Splitting

variable {k : Option Bracket} {cs content : List Component} {i e : Nat}

/-- A block in braces from `q`, with `rest` behind it up to `e`: what it holds lies up to `e'`, which is the closing
brace or the end. -/
structure Braced (src : LinedText) (content rest : List Component) (q m e : Nat) : Prop where
  opener : src.Has q Bracket.curly.opener
  lt : q < e
  content : ∃ e', src.Lies (some .curly) (q + 1) content e' ∧
    (src.Has e' Bracket.curly.closer ∧ m = e' + 1 ∨ rest = [] ∧ e' = e)

theorem Lies.curly {p : Position} (h : src.Lies k i (.block p .curly content :: cs) e) :
    ∃ m, i < m ∧ src.Lies k m cs e ∧ src.Braced content cs i m e := by
  have hlt := h.lt
  generalize hc : Component.block p .curly content :: cs = xs at h
  cases h with
  | nil => cases hc
  | leaf => cases (List.cons.inj hc).1
  | @closed k q h ds us i m e' j hs ho hl he hr =>
    obtain ⟨hb, rfl⟩ := List.cons.inj hc
    cases h with
    | inl name => cases hb
    | inr b =>
      obtain ⟨-, rfl, rfl⟩ := Component.block.inj hb
      obtain ⟨ho, rfl⟩ := ho
      have := hl.le
      exact ⟨e' + 1, by omega, hr, ho, hlt, e', hl, .inl ⟨he, rfl⟩⟩
  | @unclosed k q h ds i m hs ho hl =>
    obtain ⟨hb, rfl⟩ := List.cons.inj hc
    cases h with
    | inl name => cases hb
    | inr b =>
      obtain ⟨-, rfl, rfl⟩ := Component.block.inj hb
      obtain ⟨ho, rfl⟩ := ho
      exact ⟨_, hlt, .nil, ho, hlt, _, hl, .inr ⟨rfl, rfl⟩⟩

theorem Lies.takeQualified (h : src.Lies k i cs e) : ∃ m, i ≤ m ∧ src.Lies k m (Rule.takeQualified cs).2.2 e := by
  fun_induction Rule.takeQualified cs generalizing i with
  | case1 => exact ⟨i, Nat.le_refl i, h⟩
  | case2 => exact h.tail
  | case3 =>
    rename_i ih
    obtain ⟨m, hm, h⟩ := h.tail
    obtain ⟨m', hm', h⟩ := ih h
    exact ⟨m', Nat.le_trans hm hm', h⟩

theorem Lies.takeAtRule (h : src.Lies k i cs e) :
    ∃ m, i ≤ m ∧ src.Lies k m (Rule.takeAtRule cs).2.2 e ∧
      ∀ content, (Rule.takeAtRule cs).2.1 = some content →
        ∃ q, i ≤ q ∧ q < m ∧ src.Braced content (Rule.takeAtRule cs).2.2 q m e := by
  fun_induction Rule.takeAtRule cs generalizing i with
  | case1 => exact ⟨i, Nat.le_refl i, h, by simp⟩
  | case2 p content cs =>
    obtain ⟨m, hm, hr, hb⟩ := h.curly
    refine ⟨m, Nat.le_of_lt hm, hr, ?_⟩
    rintro _ ⟨⟩
    exact ⟨i, Nat.le_refl i, hm, hb⟩
  | case3 =>
    obtain ⟨m, hm, h⟩ := h.tail
    exact ⟨m, hm, h, by simp⟩
  | case4 =>
    rename_i ih
    obtain ⟨m, hm, h⟩ := h.tail
    obtain ⟨m', hm', h, hb⟩ := ih h
    refine ⟨m', Nat.le_trans hm hm', h, fun content hc => ?_⟩
    obtain ⟨q, hq, hb⟩ := hb content hc
    exact ⟨q, Nat.le_trans hm hq, hb⟩

theorem endsWith_slice_iff {i l : Nat} (hl : l ≤ src.text.length) :
    Text.endsWith (src.slice i l) ['\x7d'] = true ↔ i < l ∧ src.Has (l - 1) Bracket.curly.closer := by
  rw [endsWith_brace_iff, slice, List.getLast?_eq_getElem?, List.getElem?_take, List.getElem?_drop, List.length_take,
    List.length_drop]
  by_cases hil : i < l
  · have h₁ : min (l - i) (src.text.length - i) - 1 < l - i := by omega
    have h₂ : i + (min (l - i) (src.text.length - i) - 1) = l - 1 := by omega
    rw [if_pos h₁, h₂]
    exact ⟨fun h => ⟨hil, h⟩, And.right⟩
  · have h₁ : ¬ min (l - i) (src.text.length - i) - 1 < l - i := by omega
    simp [h₁, hil]

theorem Braced.lt_of_reaches {rest : List Component} {q m j : Nat} (hb : src.Braced content rest q m e) (hj : src.Reaches k e j) :
    q < j := by
  by_cases hk : k = some .curly
  · by_contra hl
    have := hb.opener.unique (hj.braces q (by omega) hb.lt)
    exact absurd this (by decide)
  · have := hj.outside hk
    have := hb.lt
    omega

/-- The content of a block in braces reaches up to where the reader takes its end to be. -/
theorem Braced.exists_reaches {rest : List Component} {q m j i next : Nat} (hb : src.Braced content rest q m e)
    (h : src.Lies k m rest e) (hqm : q < m) (hj : src.Reaches k e j) (hmin : min m j ≤ next) (hnj : next ≤ j) :
    ∃ e', src.Lies (some .curly) (q + 1) content e' ∧ m ≤ e' + 1 ∧ src.Reaches (some .curly) e' (src.contentStop i next) ∧
      q + 1 ≤ src.contentStop i next := by
  obtain ⟨e', hc, hend⟩ := hb.content
  have hem : e' ≤ m ∧ m ≤ e' + 1 := by
    rcases hend with ⟨-, rfl⟩ | ⟨rfl, rfl⟩
    · omega
    · cases h
      omega
  have hme := h.le
  have hqj := hb.lt_of_reaches hj
  have hnl : next ≤ src.text.length := Nat.le_trans hnj hj.le
  have hbraces (y : Nat) (hy : next ≤ y) (hye : y < e') : src.Has y Bracket.curly.closer :=
    hj.braces y (by omega) (by omega)
  refine ⟨e', hc, hem.2, ?_⟩
  by_cases hends : Text.endsWith (src.slice i next) ['\x7d'] = true
  · rw [contentStop, if_pos hends]
    obtain ⟨hin, hlast⟩ := (endsWith_slice_iff hnl).1 hends
    have hne : next - 1 ≠ q := by
      intro hq
      have := hb.opener.unique (hq ▸ hlast)
      exact absurd this (by decide)
    refine ⟨⟨fun y hy hye => ?_, by simp, by omega⟩, by omega⟩
    by_cases hyn : y = next - 1
    · exact hyn ▸ hlast
    · exact hbraces y (by omega) hye
  · rw [contentStop, if_neg hends]
    exact ⟨⟨hbraces, by simp, hnl⟩, by omega⟩

/-- The content of a block in braces halts where the reader takes its end to be. -/
theorem Braced.exists_halts {rest : List Component} {q m j i : Nat} {x : List Node × Text}
    (hb : src.Braced content rest q m e) (h : src.Lies k m rest e) (hqm : q < m) (hj : src.Halts k e j)
    (hr : src.read (Rule.ofComponents rest) [] j = .ok x) (hi : i ≤ q) :
    let next := src.startOf (Rule.ofComponents rest) j
    ∃ e', src.Lies (some .curly) (q + 1) content e' ∧ src.Halts (some .curly) e' (src.contentStop i next) ∧
      q + 1 ≤ src.contentStop i next ∧
      (Text.endsWith (src.slice i next) ['\x7d'] = true → src.contentStop i next ≤ e') := by
  intro next
  have hmin : min m j ≤ next := le_startOf h hr (Nat.min_le_left m j) (Nat.min_le_right m j)
  have hnj : next ≤ j := startOf_le h hj hr
  obtain ⟨e', hc, hme, hreach, hq⟩ := hb.exists_reaches h hqm hj.reaches hmin hnj
  have hqj := hb.lt_of_reaches hj.reaches
  have hiff := @endsWith_slice_iff src i next (Nat.le_trans hnj hj.le)
  refine ⟨e', hc, ⟨hreach.braces, hreach.outside, fun hlt hlast => ?_, hreach.le⟩, hq, fun hends => ?_⟩
  · by_cases hends : Text.endsWith (src.slice i next) ['\x7d'] = true
    · have hnm := startOf_le_of_closer h hj hr (hiff.1 hends).2
      rw [contentStop, if_pos hends] at hlt
      omega
    · rw [contentStop, if_neg hends] at hlast
      exact hends (hiff.2 ⟨by omega, hlast⟩)
  · have hnm := startOf_le_of_closer h hj hr (hiff.1 hends).2
    rw [contentStop, if_pos hends]
    omega

end Splitting

theorem contentStop_le (src : LinedText) (i l : Nat) : src.contentStop i l ≤ l := by
  unfold contentStop
  split <;> omega

theorem le_contentStop (src : LinedText) (i l : Nat) : l ≤ src.contentStop i l + 1 := by
  unfold contentStop
  split <;> omega

/-- What stands before the first rule in a block is the brace of the block, but for marks. -/
theorem has_opener_iff {content : List Component} {q e j : Nat} {x : List Node × Text}
    (h : src.Lies (some .curly) (q + 1) content e) (hj : src.Halts (some .curly) e j)
    (hr : src.read (Rule.ofComponents content) [] j = .ok x) (hq : src.Has q Bracket.curly.opener) (hqj : q + 1 ≤ j)
    (hje : j ≤ e) :
    src.Has (src.startOf (Rule.ofComponents content) j - 1) Bracket.curly.opener ↔ leadsWithMark content = false := by
  cases content with
  | nil =>
    obtain rfl : q + 1 = e := by cases h; rfl
    obtain rfl : j = q + 1 := Nat.le_antisymm hje hqj
    rw [startOf_nil]
    exact ⟨fun _ => rfl, fun _ => hq⟩
  | cons c cs =>
    by_cases hc : c.isHtmlMark = true
    · obtain ⟨-, hm | ⟨hl, -⟩⟩ := markEndsAt_startOf h hj hr hc
      · have := @MarkEndsAt.not_has _ _ hm Bracket.curly.opener (by decide) (by decide)
        simp [this, leadsWithMark, hc]
      · omega
    · rw [startOf_unmarked h (by simpa using hc) hr]
      simp [leadsWithMark, hc, hq]

end LinedText

end StylePrune.Css
