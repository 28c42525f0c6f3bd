import StylePrune.Proofs.Css.Origin
import StylePrune.Proofs.Css.Trimming
import StylePrune.Proofs.Table

/-!
Pruning with more and with less evidence of use. Where more selectors are unused at least as much goes: what is left is
what pruning with fewer of them leaves, pruned once more, and so a part of it at every depth.
-/

set_option autoImplicit false

namespace StylePrune.Css

variable {more less st : Statuses} {n : Node} {ns ms : List Node}

/-- The first nodes are the second ones without some of them, in order and at every depth. Each one that is left has the
text of its own. -/
inductive Within : List Node → List Node → Prop
  | nil : Within [] []
  | gone {n : Node} {ns ms : List Node} (h : Within ns ms) : Within ns (n :: ms)
  | block {b : Block} {ns ms : List Node} (h : Within ns ms) : Within (.block b :: ns) (.block b :: ms)
  | group {g : Group} {cs ds : List Node} {trailing : Text} {ns ms : List Node} (hc : Within cs ds)
      (h : Within ns ms) : Within (.group g cs trailing :: ns) (.group g ds trailing :: ms)
  | statement {s : Statement} {ns ms : List Node} (h : Within ns ms) : Within (.statement s :: ns) (.statement s :: ms)

/-- Taking out what vanishes leaves a part. -/
theorem Trimmed.within (h : Trimmed st ns ms) : Within ms ns := by
  induction h with
  | nil => exact .nil
  | gone _ _ ih => exact .gone ih
  | block _ _ ih => exact .block ih
  | group _ _ _ ihc ih => exact .group ihc ih
  | statement _ ih => exact .statement ih

theorem pruneAll_append (st : Statuses) (ns ms : List Node) : pruneAll st (ns ++ ms) =
    ((pruneAll st ns).1 ++ (pruneAll st ms).1, (pruneAll st ns).2 + (pruneAll st ms).2) := by
  induction ns with
  | nil => simp [pruneAll]
  | cons n ns ih => simp only [List.cons_append, pruneAll, ih, List.append_assoc, Nat.add_assoc]

/-- Every selector that is unused for the one is unused for the other. -/
def Condemns (more less : Statuses) : Prop := ∀ a, less.get? a = some .unused → more.get? a = some .unused

theorem Condemns.isDead (h : Condemns more less) {b : Block} (hd : b.isDead less = true) : b.isDead more = true := by
  rw [Block.isDead_iff] at hd ⊢
  exact ⟨hd.1, fun a ha => ⟨(hd.2 a ha).1, h a (hd.2 a ha).2⟩⟩

mutual
theorem Node.pruneAll_prune (h : Condemns more less) (n : Node) :
    (pruneAll more (n.prune less).1.toList).1 = (n.prune more).1.toList ∧
      (n.prune less).2 + (pruneAll more (n.prune less).1.toList).2 = (n.prune more).2 := by
  cases n with
  | block b =>
    by_cases hd : b.isDead less = true
    · simp [Node.prune, hd, h.isDead hd, pruneAll]
    · simp [Node.prune, hd, pruneAll]
  | group g cs trailing =>
    obtain ⟨hleft, hcount⟩ := pruneAll_pruneAll_of_condemns h cs
    by_cases hcs : cs = []
    · simp [hcs, Node.prune, pruneAll]
    · by_cases hnil : (pruneAll less cs).1 = []
      · -- the group goes both times: nothing in it is left to be found dead
        rw [hnil, pruneAll] at hleft hcount
        have hmore : (pruneAll more cs).1 = [] := hleft.symm
        simp only [Node.prune, hcs, hnil, hmore, List.isEmpty_iff, List.isEmpty_nil, Bool.not_true, Bool.or_false,
          if_false, Option.toList_none, pruneAll, true_and]
        exact hcount
      · simp only [Node.prune, hcs, hnil, List.isEmpty_iff, Bool.or_eq_true, Bool.not_eq_true', List.isEmpty_eq_false_iff,
          ne_eq, not_false_eq_true, or_true, if_true, Option.toList_some, pruneAll, hleft, false_or,
          List.append_nil, Nat.add_zero, hcount, and_self]
  | statement s => simp [Node.prune, pruneAll]

/-- Pruning with more unused selectors finds the rest after pruning with fewer. -/
theorem pruneAll_pruneAll_of_condemns (h : Condemns more less) (ns : List Node) :
    (pruneAll more (pruneAll less ns).1).1 = (pruneAll more ns).1 ∧
      (pruneAll less ns).2 + (pruneAll more (pruneAll less ns).1).2 = (pruneAll more ns).2 := by
  cases ns with
  | nil => exact ⟨rfl, rfl⟩
  | cons n ns =>
    obtain ⟨hn, hcount⟩ := n.pruneAll_prune h
    obtain ⟨ih, ihcount⟩ := pruneAll_pruneAll_of_condemns h ns
    simp only [pruneAll, pruneAll_append, hn, ih, true_and]
    omega
end

/-- Where more selectors are unused what pruning leaves is a part, at every depth, of what it leaves where fewer are,
at least as many selectors are counted, and pruning the one result with them gives the other. -/
theorem Sheet.prune_mono (h : Condemns more less) (s : Sheet) :
    Within (s.prune more).1.children (s.prune less).1.children ∧
      (s.prune more).1.trailing = (s.prune less).1.trailing ∧
      (s.prune more).1.render.Sublist (s.prune less).1.render ∧
      (s.prune less).2 ≤ (s.prune more).2 ∧
      (s.prune less).1.prune more = ((s.prune more).1, (s.prune more).2 - (s.prune less).2) := by
  obtain ⟨hleft, hcount⟩ := pruneAll_pruneAll_of_condemns h s.children
  have hwithin := (trimmed_pruneAll more (pruneAll less s.children).1).within
  have hrender := render_pruneAll_sublist more (pruneAll less s.children).1
  rw [hleft] at hwithin hrender
  refine ⟨hwithin, rfl, hrender.append_right s.trailing, ?_, ?_⟩
  · simp only [Sheet.prune]
    omega
  · simp only [Sheet.prune, hleft, ← hcount, Nat.add_sub_cancel_left]

/-- A rule with one selector. -/
def Block.bare (a : Text) : Block := ⟨[], none, a, [], [a]⟩

/-- Two rules in a group, and a group with nothing in it. -/
def pair : Sheet :=
  ⟨[.group ⟨[], "media", "@media x", "x"⟩ [.block (.bare ".a"), .block (.bare ".b")] [],
    .group ⟨[], "layer", "@layer", []⟩ [] []], []⟩

/-- Only the first of the two selectors of the pair is unused. -/
def oneUnused : Statuses := Table.ofList [(".a", .unused), (".b", .used)]

def bothUnused : Statuses := Table.ofList [(".a", .unused), (".b", .unused)]

/-- With one selector unused the group of the pair loses a rule, and with both it goes. -/
theorem prune_mono_pair : Condemns bothUnused oneUnused ∧
    Within (pair.prune bothUnused).1.children (pair.prune oneUnused).1.children ∧
    pair.prune oneUnused = (⟨[.group ⟨[], "media", "@media x", "x"⟩ [.block (.bare ".b")] [],
      .group ⟨[], "layer", "@layer", []⟩ [] []], []⟩, 1) ∧
    pair.prune bothUnused = (⟨[.group ⟨[], "layer", "@layer", []⟩ [] []], []⟩, 2) := by
  have hc : Condemns bothUnused oneUnused := by
    intro a ha
    have hmem : (a, Status.unused) ∈ [((".a" : Text), Status.unused), (".b", .used)] := Table.mem_of_get? ha
    obtain rfl : a = ".a" := by simpa using hmem
    rfl
  exact ⟨hc, (pair.prune_mono hc).1, rfl, rfl⟩

end StylePrune.Css
