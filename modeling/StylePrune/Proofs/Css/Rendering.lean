import Mathlib
import StylePrune.Proofs.Css.Extents
import StylePrune.Proofs.Css.Prelude

/-!
Which sheets render to their text. The nodes of a sheet take up the text from the first rule on, without
gaps; a group writes the braces around its content whatever stands there.
-/

set_option autoImplicit false

namespace StylePrune.Css

namespace LinedText

variable {src : LinedText}

/-- Nodes and the spacing behind them that take up the text from `i` to `j`, with the groups among them. -/
inductive Tiles (src : LinedText) : Nat → Nat → List Node → Text → List Enclosure → Prop where
  | trail {i j : Nat} : i ≤ j → Tiles src i j [] (src.slice i j) []
  | solo {n : Node} {i m l j : Nat} {sel : Option (List Text)} {ns : List Node} {tr : Text} {gs : List Enclosure} :
      n.outline? = some (src.slice i m, src.slice m l, sel) → i ≤ m → m ≤ l → Tiles src l j ns tr gs →
      Tiles src i j (n :: ns) tr gs
  | group {g : Group} {cs ns : List Node} {t tr : Text} {content : List Component} {gs hs : List Enclosure}
      {i m c l j : Nat} :
      g.leading = src.slice i m → g.head = src.slice m (c - 1) → i ≤ m → m < c → c ≤ src.contentStop m l → m < l →
      (Text.endsWith (src.slice m l) ['\x7d'] = true →
        (src.Has (c - 1) Bracket.curly.opener ↔ leadsWithMark content = false)) →
      Tiles src c (src.contentStop m l) cs t gs → Tiles src l j ns tr hs →
      Tiles src i j (.group g cs t :: ns) tr (⟨src.slice m l, content⟩ :: (gs ++ hs))

section Tiling

variable {k : Option Bracket} {i j e o : Nat} {ns : List Node} {tr : Text} {prelude : List Component}

/-- What the reader makes of components tiles the text from the first rule on. -/
def ReadsTiles (src : LinedText) (cs : List Component) : Prop :=
  ∀ {k : Option Bracket} {i e j o : Nat} {ns : List Node} {tr : Text}, src.Lies k i cs e → src.Halts k e j →
    o ≤ src.startOf (Rule.ofComponents cs) j →
    src.read (Rule.ofComponents cs) (src.slice o (src.startOf (Rule.ofComponents cs) j)) j = .ok (ns, tr) →
    Tiles src o j ns tr (src.groups (Rule.ofComponents cs) j)

/-- A node without children, before components that start at `m`. -/
theorem tiles_solo {n : Node} {sel : Option (List Text)} {r : Rule} {rest : List Component} {m : Nat} (hrest : src.ReadsTiles rest)
    (ho : n.outline? = some (src.slice o i, src.slice i (src.startOf (Rule.ofComponents rest) j), sel)) (hoi : o ≤ i)
    (him : i ≤ m) (hij : i ≤ j) (h : src.Lies k m rest e) (hj : src.Halts k e j)
    (hg : src.groups (r :: Rule.ofComponents rest) j = src.groups (Rule.ofComponents rest) j)
    (hr : ((src.read (Rule.ofComponents rest) [] j).map fun rest => (n :: rest.1, rest.2)) = .ok (ns, tr)) :
    Tiles src o j ns tr (src.groups (r :: Rule.ofComponents rest) j) := by
  obtain ⟨ms, rfl, hms⟩ := read_map_eq_ok hr
  rw [hg]
  refine .solo ho hoi (le_startOf h hms him hij) (hrest h hj (Nat.le_refl _) ?_)
  rwa [slice_self]

theorem tiles_qualified {p : Position} {prelude content rest : List Component} {m : Nat} (hrest : src.ReadsTiles rest)
    (hp : src.index p = i) (hoi : o ≤ i) (him : i ≤ m) (hij : i ≤ j) (h : src.Lies k m rest e) (hj : src.Halts k e j)
    (hr : src.read (.qualified p prelude content :: Rule.ofComponents rest) (src.slice o i) j = .ok (ns, tr)) :
    Tiles src o j ns tr (src.groups (.qualified p prelude content :: Rule.ofComponents rest) j) := by
  cases hx : prelude.findSome? Component.error? with
  | some x =>
    rw [read_refused hx] at hr
    cases hr
  | none =>
    rw [read_qualified hx, hp] at hr
    exact tiles_solo hrest rfl hoi him hij h hj (groups_cons_of_ne (by simp)) hr

theorem tiles_statement {p : Position} {keyword : Text} {prelude rest : List Component} {content : Option (List Component)}
    {m : Nat} (hrest : src.ReadsTiles rest) (hp : src.index p = i) (hoi : o ≤ i) (him : i ≤ m) (hij : i ≤ j)
    (h : src.Lies k m rest e) (hj : src.Halts k e j)
    (hc : ∀ cs, content = some cs → Text.asciiLower keyword ∉ groupNames)
    (hr : src.read (.atRule p keyword prelude content :: Rule.ofComponents rest) (src.slice o i) j = .ok (ns, tr)) :
    Tiles src o j ns tr (src.groups (.atRule p keyword prelude content :: Rule.ofComponents rest) j) := by
  rw [read_statement hc, hp] at hr
  refine tiles_solo hrest (outline?_statementOf ..) hoi him hij h hj (groups_cons_of_ne ?_) hr
  rintro _ _ _ cs ⟨⟩
  exact hc cs rfl

theorem tiles_group {p : Position} {keyword : Text} {prelude content rest : List Component} {m q : Nat}
    (hcontent : src.ReadsTiles content) (hrest : src.ReadsTiles rest) (hp : src.index p = i) (hoi : o ≤ i) (hiq : i ≤ q)
    (hqm : q < m) (h : src.Lies k m rest e) (hj : src.Halts k e j) (hb : src.Braced content rest q m e)
    (hn : Text.asciiLower keyword ∈ groupNames)
    (hr : src.read (.atRule p keyword prelude (some content) :: Rule.ofComponents rest) (src.slice o i) j = .ok (ns, tr)) :
    Tiles src o j ns tr (src.groups (.atRule p keyword prelude (some content) :: Rule.ofComponents rest) j) := by
  rw [read_group hn, hp] at hr
  simp only [] at hr
  split at hr
  · cases hr
  · rename_i children trailing hc
    obtain ⟨ms, rfl, hms⟩ := read_map_eq_ok hr
    obtain ⟨e', hl, hh, hq, hends⟩ := hb.exists_halts h hqm hj hms hiq
    have hqc := le_startOf hl hc (Nat.le_refl (q + 1)) hq
    have hstop := src.contentStop_le i (src.startOf (Rule.ofComponents rest) j)
    rw [groups_group hn, hp]
    exact .group rfl rfl hoi (by omega) (startOf_le hl hh hc) (by omega)
      (fun he => has_opener_iff hl hh hc hb.opener hq (hends he))
      (hcontent hl hh (Nat.le_refl _) (by rwa [slice_self])) (hrest h hj (Nat.le_refl _) (by rwa [slice_self]))

theorem tiles_trivia {c : Component} {cs : List Component} (h : src.Lies k i (c :: cs) e) (ht : c.isTrivia = true)
    (hrest : src.ReadsTiles cs) (ho : o ≤ i) (hij : i ≤ j) (hj : src.Halts k e j)
    (hr : src.read (Rule.ofComponents (c :: cs)) (src.slice o i) j = .ok (ns, tr)) :
    Tiles src o j ns tr (src.groups (Rule.ofComponents (c :: cs)) j) := by
  obtain ⟨m, him, hm⟩ := h.tail
  rw [Rule.ofComponents_of_isTrivia ht] at hr ⊢
  rw [read_trivia, h.starts.index] at hr
  have hle := le_startOf hm hr him hij
  rw [slice_append src ho hle] at hr
  rw [groups_cons_of_ne (by simp)]
  exact hrest hm hj (Nat.le_trans ho hle) hr

theorem tiles_atRule {p : Position} {name : Text} {cs : List Component} (h : src.Lies k i (.leaf p (.atKeyword name) :: cs) e)
    (ih : ∀ ds, Component.size.sizeAll ds ≤ Component.size.sizeAll cs → src.ReadsTiles ds) (ho : o ≤ i) (hij : i ≤ j)
    (hj : src.Halts k e j)
    (hr : src.read (Rule.ofComponents (.leaf p (.atKeyword name) :: cs)) (src.slice o i) j = .ok (ns, tr)) :
    Tiles src o j ns tr (src.groups (Rule.ofComponents (.leaf p (.atKeyword name) :: cs)) j) := by
  have hp : src.index p = i := h.starts.index
  obtain ⟨m, him, h⟩ := h.tail
  obtain ⟨m', hm', h, hb⟩ := h.takeAtRule
  have hsize := Rule.takeAtRule_size cs
  rw [Rule.ofComponents_of_atKeyword] at hr ⊢
  generalize (Rule.takeAtRule cs).2.1 = content at hr hb hsize ⊢
  have hrest : src.ReadsTiles (Rule.takeAtRule cs).2.2 := ih _ (by omega)
  by_cases hg : ∃ content', content = some content' ∧ Text.asciiLower name ∈ groupNames
  · obtain ⟨content, rfl, hn⟩ := hg
    obtain ⟨q, hq, hqm, hb⟩ := hb content rfl
    simp only [Rule.contentSize, Option.map_some, Option.getD_some] at hsize
    have hcontent : src.ReadsTiles content := ih _ (by omega)
    exact tiles_group hcontent hrest hp ho (by omega) hqm h hj hb hn hr
  · exact tiles_statement hrest hp ho (by omega) hij h hj (fun cs hc hn => hg ⟨cs, hc, hn⟩) hr

/-- What the reader makes of the components of a text tiles the text. -/
theorem readsTiles (src : LinedText) (cs : List Component) : src.ReadsTiles cs := by
  induction hsize : Component.size.sizeAll cs using Nat.strongRecOn generalizing cs with
  | ind n ih =>
  subst hsize
  intro k i e j o ns tr h hj ho hr
  cases cs with
  | nil =>
    rw [read_nil] at hr
    obtain ⟨rfl, rfl⟩ := Prod.mk.inj (Except.ok.inj hr)
    rw [startOf_nil] at ho ⊢
    rw [groups_nil]
    exact .trail ho
  | cons c cs =>
    have hlt : Component.size.sizeAll cs < Component.size.sizeAll (c :: cs) := by
      have hc := c.size_pos
      simp only [Component.size.sizeAll]
      omega
    by_cases hm : c.isHtmlMark = true
    · obtain ⟨m, -, -, h⟩ := h.mark hm
      rw [Rule.ofComponents_of_isHtmlMark hm] at ho hr ⊢
      exact ih _ hlt cs rfl h hj ho hr
    rw [startOf_unmarked h (by simpa using hm) hr j] at ho hr
    have hij := Nat.le_of_lt (hj.lt h)
    by_cases ht : c.isTrivia = true
    · exact tiles_trivia h ht (ih _ hlt cs rfl) ho hij hj hr
    by_cases ha : ∃ p name, c = .leaf p (.atKeyword name)
    · obtain ⟨p, name, rfl⟩ := ha
      exact tiles_atRule h (fun ds hds => ih _ (by omega) ds rfl) ho hij hj hr
    · obtain ⟨m, him, hrest⟩ := h.takeQualified
      rw [Rule.ofComponents_of_ne (by simpa using ht) (by simpa using hm) fun p name hc => ha ⟨p, name, hc⟩] at hr ⊢
      unfold Rule.ofQualified at hr ⊢
      simp only [] at hr ⊢
      split at hr
      · exact tiles_qualified (ih _ (Rule.takeQualified_size_lt c cs) _ rfl) h.starts.index ho him hij hrest hj hr
      · rw [read_unfinished] at hr
        cases hr

end Tiling

section Measuring

variable {i j : Nat} {ns : List Node} {tr : Text} {gs : List Enclosure}

theorem length_slice {i j : Nat} (hj : j ≤ src.text.length) : (src.slice i j).length = j - i := by
  simp only [slice, List.length_take, List.length_drop]
  omega

theorem slice_eq_singleton_iff {i : Nat} {c : CodePoint} : src.slice i (i + 1) = [c] ↔ src.Has i c := by
  rw [slice, Nat.add_sub_cancel_left, Has, List.take_one, List.head?_drop]
  cases src.text[i]? <;> simp

theorem Tiles.le (h : src.Tiles i j ns tr gs) : i ≤ j := by
  induction h with
  | trail h => exact h
  | solo _ h₁ h₂ _ ih => omega
  | group _ _ h₁ h₂ h₃ h₄ _ _ _ ihc ih => omega

/-- The text of a group, with the braces it writes. -/
theorem render_group_append {g : Group} {cs ns : List Node} {t tr : Text} {i m c : Nat} (hl : g.leading = src.slice i m)
    (hh : g.head = src.slice m (c - 1)) (him : i ≤ m) (hmc : m < c) :
    renderAll (.group g cs t :: ns) ++ tr =
      src.slice i (c - 1) ++ (Bracket.curly.opener :: ((renderAll cs ++ t) ++ (Bracket.curly.closer :: (renderAll ns ++ tr)))) := by
  rw [← slice_append src him (by omega : m ≤ c - 1), ← hl, ← hh]
  simp [renderAll, Node.render, Bracket.opener, Bracket.closer]

theorem render_solo_append {n : Node} {sel : Option (List Text)} {ns : List Node} {tr : Text} {i m l : Nat}
    (hn : n.outline? = some (src.slice i m, src.slice m l, sel)) (him : i ≤ m) (hml : m ≤ l) :
    renderAll (n :: ns) ++ tr = src.slice i l ++ (renderAll ns ++ tr) := by
  rw [← slice_append src him hml, renderAll, Node.render_of_outline? hn]
  simp

/-- A text between `i` and `j` in the parts of a group and what follows it. -/
theorem slice_group {i c s l j : Nat} (hic : i < c) (hcs : c ≤ s) (hsl : s ≤ l) (hlj : l ≤ j) :
    src.slice i j = src.slice i (c - 1) ++ (src.slice (c - 1) c ++ (src.slice c s ++ (src.slice s l ++ src.slice l j))) := by
  rw [slice_append src hsl hlj, slice_append src hcs (by omega), slice_append src (by omega) (by omega),
    slice_append src (by omega) (by omega)]

theorem Tiles.le_length (h : src.Tiles i j ns tr gs) (hj : j ≤ src.text.length) :
    j - i ≤ (renderAll ns ++ tr).length := by
  induction h with
  | trail h => simp [renderAll, length_slice hj]
  | solo hn h₁ h₂ ht ih =>
    have := ht.le
    rw [render_solo_append hn h₁ h₂, List.length_append, length_slice (by omega)]
    have := ih hj
    omega
  | @group g cs ns t tr content gs hs i m c l j hl hh h₁ h₂ h₃ h₄ _ hc ht ihc ih =>
    have := ht.le
    have := src.contentStop_le m l
    have := ihc (by omega)
    have := ih hj
    have := src.le_contentStop m l
    have hhead : (src.slice i (c - 1)).length = c - 1 - i := length_slice (by omega)
    rw [render_group_append hl hh h₁ h₂]
    simp only [List.length_append, List.length_cons, hhead] at *
    omega

theorem endsWith_of_contentStop {i l : Nat} (h : src.contentStop i l ≠ l) :
    Text.endsWith (src.slice i l) ['\x7d'] = true := by
  by_contra hn
  exact h (if_neg hn)

/-- Nodes write what they take up exactly if every group among them is tight. -/
theorem Tiles.eq_iff (h : src.Tiles i j ns tr gs) (hj : j ≤ src.text.length) :
    renderAll ns ++ tr = src.slice i j ↔ ∀ g ∈ gs, g.IsTight := by
  induction h with
  | trail h => simp [renderAll]
  | solo hn h₁ h₂ ht ih =>
    have := ht.le
    rw [render_solo_append hn h₁ h₂, ← slice_append src (by omega) this, List.append_cancel_left_eq]
    exact ih hj
  | @group g cs ns t tr content gs hs i m c l j hl hh h₁ h₂ h₃ h₄ hmark hc ht ihc ih =>
    have hlj := ht.le
    have hstop := src.contentStop_le m l
    have hslc : l ≤ src.contentStop m l + 1 := src.le_contentStop m l
    have hopener : src.slice (c - 1) c = [Bracket.curly.opener] ↔ src.Has (c - 1) Bracket.curly.opener := by
      rw [← slice_eq_singleton_iff, Nat.sub_add_cancel (by omega)]
    rw [render_group_append hl hh h₁ h₂, slice_group (by omega) h₃ hstop hlj, List.append_cancel_left_eq]
    simp only [List.forall_mem_cons, List.forall_mem_append]
    generalize hX : renderAll cs ++ t = X at ihc ⊢
    generalize hR : renderAll ns ++ tr = R at ih ⊢
    constructor
    · intro he
      have hl₁ : (src.slice (c - 1) c).length = 1 := by rw [length_slice (by omega)]; omega
      have hl₂ : (src.slice c (src.contentStop m l)).length = src.contentStop m l - c := length_slice (by omega)
      have hl₃ : (src.slice (src.contentStop m l) l).length = l - src.contentStop m l := length_slice (by omega)
      have hl₄ : (src.slice l j).length = j - l := length_slice hj
      -- neither the content nor what follows is shorter than its part of the text, so the closing brace has its own
      have hclen : _ ≤ X.length := hX ▸ hc.le_length (by omega)
      have htlen : _ ≤ R.length := hR ▸ ht.le_length hj
      have hlen := congrArg List.length he
      simp only [List.length_append, List.length_cons, hl₁, hl₂, hl₃, hl₄] at hlen
      have hends : Text.endsWith (src.slice m l) ['\x7d'] = true := endsWith_of_contentStop (by omega)
      have he : [Bracket.curly.opener] ++ (X ++ ([Bracket.curly.closer] ++ R)) = _ := he
      obtain ⟨ho, he⟩ := List.append_inj he hl₁.symm
      obtain ⟨hx, he⟩ := List.append_inj he (by omega)
      obtain ⟨-, hr⟩ := List.append_inj he (by rw [hl₃, List.length_singleton]; omega)
      exact ⟨⟨hends, (hmark hends).1 (hopener.1 ho.symm)⟩, (ihc (by omega)).1 hx, (ih hj).1 hr⟩
    · rintro ⟨⟨hends, hm⟩, hgs, hhs⟩
      have hs : src.contentStop m l = l - 1 := if_pos hends
      have hcloser : src.slice (l - 1) l = [Bracket.curly.closer] := by
        have := slice_eq_singleton_iff.2 ((endsWith_slice_iff (by omega)).1 hends).2
        rwa [Nat.sub_add_cancel (by omega)] at this
      rw [(ihc (by omega)).2 hgs, (ih hj).2 hhs, hopener.2 ((hmark hends).2 hm), hs, hcloser]
      rfl

/-- What ends a mark. -/
def isMarkEnd (c : CodePoint) : Bool := c = '-' || c = '>'

theorem Tiles.countP_le (h : src.Tiles i j ns tr gs) :
    (renderAll ns ++ tr).countP isMarkEnd ≤ (src.slice i j).countP isMarkEnd := by
  induction h with
  | trail h => simp [renderAll]
  | solo hn h₁ h₂ ht ih =>
    rw [render_solo_append hn h₁ h₂, ← slice_append src (by omega) ht.le]
    simp only [List.countP_append] at ih ⊢
    omega
  | @group g cs ns t tr content gs hs i m c l j hl hh h₁ h₂ h₃ h₄ hmark hc ht ihc ih =>
    have ho : isMarkEnd Bracket.curly.opener = false := by decide
    have hb : isMarkEnd Bracket.curly.closer = false := by decide
    rw [render_group_append hl hh h₁ h₂, slice_group (by omega) h₃ (src.contentStop_le m l) ht.le]
    simp only [List.countP_append, List.countP_cons, ho, hb] at ihc ih ⊢
    simp only [Bool.false_eq_true, if_false]
    omega

end Measuring

end LinedText

namespace LinedText

variable {T : Text} {cs : List Component} {ns : List Node} {tr : Text}

theorem halts_all (T : Text) : (ofText T).Halts none T.length T.length :=
  ⟨fun y h₁ h₂ => by omega, fun _ => Nat.le_refl _, fun h => by omega, Nat.le_refl _⟩

theorem slice_all (T : Text) : (ofText T).slice 0 T.length = T := by simp [slice, ofText]

/-- A leading mark is lost. -/
theorem render_ne_of_mark (hl : (ofText T).Lies none 0 cs T.length)
    (hr : (ofText T).read (Rule.ofComponents cs) [] T.length = .ok (ns, tr)) (hm : leadsWithMark cs = true) :
    renderAll ns ++ tr ≠ T := by
  intro he
  have ht := readsTiles _ cs hl (halts_all T) (Nat.le_refl _) (by rwa [slice_self])
  obtain ⟨hpos, hend | ⟨hlt, -⟩⟩ := markEndsAt_startOf hl (halts_all T) hr hm
  · generalize (ofText T).startOf (Rule.ofComponents cs) T.length = i at ht hpos hend
    have hcount := ht.countP_le
    have hlast : ((ofText T).slice (i - 1) i).countP isMarkEnd = 1 := by
      have hi : i - 1 + 1 = i := Nat.sub_add_cancel hpos
      rcases hend.2 with h | h
      · rw [← hi, Nat.add_sub_cancel, slice_eq_singleton_iff.2 h]
        decide
      · rw [← hi, Nat.add_sub_cancel, slice_eq_singleton_iff.2 h]
        decide
    have hsplit : T = (ofText T).slice 0 (i - 1) ++ ((ofText T).slice (i - 1) i ++ (ofText T).slice i T.length) := by
      have hle := ht.le
      rw [slice_append _ (by omega) hle, slice_append _ (by omega) (by omega), slice_all]
    have hsum := congrArg (List.countP isMarkEnd) hsplit
    simp only [List.countP_append] at hsum
    rw [he] at hcount
    omega
  · omega

theorem render_eq_iff_of_unmarked (hl : (ofText T).Lies none 0 cs T.length)
    (hr : (ofText T).read (Rule.ofComponents cs) [] T.length = .ok (ns, tr)) (hm : leadsWithMark cs = false) :
    renderAll ns ++ tr = T ↔ ∀ g ∈ (ofText T).groups (Rule.ofComponents cs) T.length, g.IsTight := by
  have ht := readsTiles _ cs hl (halts_all T) (Nat.le_refl _) (by rwa [slice_self])
  have hi : (ofText T).startOf (Rule.ofComponents cs) T.length = 0 := by
    cases cs with
    | nil =>
      rw [startOf_nil]
      generalize T.length = l at hl
      cases hl
      rfl
    | cons c cs => exact startOf_unmarked hl (by simpa [leadsWithMark] using hm) hr _
  rw [hi] at ht
  rw [← ht.eq_iff (Nat.le_refl _), slice_all]

end LinedText

/-- No mark leads the sheet, and every group is tight. -/
def Seamless (css : Text) : Prop :=
  ∀ cs, components (normalizeNewlines css) = .ok cs →
    leadsWithMark cs = false ∧
      ∀ g ∈ (LinedText.ofText (normalizeNewlines css)).groups (Rule.ofComponents cs) (normalizeNewlines css).length,
        g.IsTight

/-- A sheet nobody touched renders to its text, newlines in one form, exactly if the text is seamless. -/
theorem Sheet.render_eq_iff_seamless {css : Text} {sheet : Sheet} (h : Sheet.parse css = .ok sheet) :
    sheet.render = normalizeNewlines css ↔ Seamless css := by
  obtain ⟨cs, hc, hr⟩ := Sheet.parse_eq_ok_iff.1 h
  have hl := LinedText.lies_components (clean_normalizeNewlines css) hc
  rw [Sheet.render]
  cases hm : leadsWithMark cs with
  | true =>
    refine iff_of_false (LinedText.render_ne_of_mark hl hr hm) fun hs => ?_
    exact Bool.false_ne_true ((hs cs hc).1.symm.trans hm)
  | false =>
    rw [LinedText.render_eq_iff_of_unmarked hl hr hm]
    refine ⟨fun hg cs' hc' => ?_, fun hs => (hs cs hc).2⟩
    obtain rfl := Except.ok.inj (hc.symm.trans hc')
    exact ⟨hm, hg⟩

/-- A group whose content starts with a mark. -/
def markedGroup : Text := "@media x\x7b<!-- a\x7b\x7d\x7d"

theorem render_markedGroup : (Sheet.parse markedGroup).map Sheet.render = .ok "@media x\x7b<!-\x7b a\x7b\x7d\x7d" := by cbv

theorem groups_markedGroup : (components (normalizeNewlines markedGroup)).map (fun cs =>
    ((LinedText.ofText (normalizeNewlines markedGroup)).groups (Rule.ofComponents cs)
      (normalizeNewlines markedGroup).length).map fun g => leadsWithMark g.content) = .ok [true] := by cbv

/-- The mark loses its last character to the brace. -/
theorem render_markedGroup_ne : ∃ sheet, Sheet.parse markedGroup = .ok sheet ∧
    sheet.render = "@media x\x7b<!-\x7b a\x7b\x7d\x7d" ∧ sheet.render ≠ normalizeNewlines markedGroup := by
  obtain ⟨sheet, hp, hr⟩ := exists_of_map_eq_ok render_markedGroup
  refine ⟨sheet, hp, hr, fun he => ?_⟩
  obtain ⟨cs, hc, hg⟩ := exists_of_map_eq_ok groups_markedGroup
  obtain ⟨g, gs, hgs, hm, -⟩ := List.map_eq_cons_iff.1 hg
  have ht := (((Sheet.render_eq_iff_seamless hp).1 he cs hc).2 g (by simp [hgs])).2
  exact Bool.false_ne_true (ht.symm.trans hm)

end StylePrune.Css
