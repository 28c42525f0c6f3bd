import StylePrune.Css.Prune
import StylePrune.Proofs.Selector

/-!
Pruning as a filter: of the style rules of a tree, at whatever depth, exactly the dead ones go.
-/

set_option autoImplicit false

namespace StylePrune.Css

mutual
/-- The style rules in a node at every depth, in order. -/
def Node.blocks : Node → List Block
  | .block b => [b]
  | .group _ cs _ => blocksAll cs
  | .statement _ => []

def blocksAll : List Node → List Block
  | [] => []
  | n :: ns => n.blocks ++ blocksAll ns
end

def Sheet.blocks (s : Sheet) : List Block := blocksAll s.children

theorem blocksAll_append (ns ms : List Node) :
    blocksAll (ns ++ ms) = blocksAll ns ++ blocksAll ms := by
  induction ns with
  | nil => rfl
  | cons n ns ih => simp [blocksAll, ih]

mutual
theorem Node.blocks_prune (st : Statuses) (n : Node) :
    blocksAll (n.prune st).1.toList = n.blocks.filter fun b => !b.isDead st := by
  cases n with
  | block b =>
    by_cases hd : b.isDead st
    · simp [Node.prune, Node.blocks, blocksAll, hd]
    · simp [Node.prune, Node.blocks, blocksAll, hd]
  | group g cs trailing =>
    have ih := blocksAll_pruneAll st cs
    simp only [Node.prune, Node.blocks]
    split
    · simpa [blocksAll, Node.blocks] using ih
    · -- a group goes only when nothing is left in it
      rename_i he
      have hr : (pruneAll st cs).1 = [] := by simp at he; exact he.2
      rw [← ih, hr]
      rfl
  | statement s => rfl

/-- What is left of the rules of some nodes are those that are not dead. -/
theorem blocksAll_pruneAll (st : Statuses) (ns : List Node) :
    blocksAll (pruneAll st ns).1 = (blocksAll ns).filter fun b => !b.isDead st := by
  cases ns with
  | nil => rfl
  | cons n ns =>
    have hn := n.blocks_prune st
    have ih := blocksAll_pruneAll st ns
    simp only [pruneAll, blocksAll, blocksAll_append, List.filter_append, hn, ih]
end

mutual
theorem Node.prune_of_alive (st : Statuses) (n : Node) (h : ∀ b ∈ n.blocks, b.isDead st = false) :
    n.prune st = (some n, 0) := by
  cases n with
  | block b => simp [Node.prune, h b (by simp [Node.blocks])]
  | group g cs trailing =>
    have ih := pruneAll_of_alive st cs h
    simp [Node.prune, ih]
  | statement s => rfl

/-- Where no rule is dead nothing goes. -/
theorem pruneAll_of_alive (st : Statuses) (ns : List Node) (h : ∀ b ∈ blocksAll ns, b.isDead st = false) :
    pruneAll st ns = (ns, 0) := by
  cases ns with
  | nil => rfl
  | cons n ns =>
    have hn := n.prune_of_alive st fun b hb => h b (List.mem_append_left _ hb)
    have ih := pruneAll_of_alive st ns fun b hb => h b (List.mem_append_right _ hb)
    simp [pruneAll, hn, ih]
end

mutual
theorem Node.prune_congr {st st' : Statuses} (n : Node) (h : ∀ b ∈ n.blocks, b.isDead st' = b.isDead st) :
    n.prune st' = n.prune st := by
  cases n with
  | block b => simp only [Node.prune, h b (by simp [Node.blocks])]
  | group g cs trailing =>
    have ih := pruneAll_congr cs h
    simp only [Node.prune, ih]
  | statement s => rfl

/-- Nothing but which rules are dead matters. -/
theorem pruneAll_congr {st st' : Statuses} (ns : List Node) (h : ∀ b ∈ blocksAll ns, b.isDead st' = b.isDead st) :
    pruneAll st' ns = pruneAll st ns := by
  cases ns with
  | nil => rfl
  | cons n ns =>
    have hn := n.prune_congr fun b hb => h b (List.mem_append_left _ hb)
    have ih := pruneAll_congr ns fun b hb => h b (List.mem_append_right _ hb)
    simp only [pruneAll, hn, ih]
end

theorem Sheet.blocks_prune (st : Statuses) (s : Sheet) :
    (s.prune st).1.blocks = s.blocks.filter fun b => !b.isDead st :=
  blocksAll_pruneAll st s.children

mutual
theorem Node.map_fst_uses (media : Option Text) (n : Node) :
    (n.uses media).map Prod.fst = n.blocks.flatMap Block.selectors := by
  cases n with
  | block b => simp [Node.uses, Node.blocks, Function.comp_def]
  | group g cs trailing => exact map_fst_usesAll (g.mediaWithin media) cs
  | statement s => rfl

theorem map_fst_usesAll (media : Option Text) (ns : List Node) :
    (usesAll media ns).map Prod.fst = (blocksAll ns).flatMap Block.selectors := by
  cases ns with
  | nil => rfl
  | cons n ns =>
    have hn := n.map_fst_uses media
    have ih := map_fst_usesAll media ns
    simp only [usesAll, blocksAll, List.map_append, List.flatMap_append, hn, ih]
end

/-- The selectors of a sheet are those of its rules. -/
theorem Sheet.map_fst_uses (s : Sheet) : s.uses.map Prod.fst = s.blocks.flatMap Block.selectors :=
  map_fst_usesAll none s.children

theorem Block.isDead_congr {b c : Block} (h : b.selectors = c.selectors) (st : Statuses) : b.isDead st = c.isDead st := by
  simp only [isDead, h]

/-- A rule is dead when it has selectors and all of them are eligible and unused. -/
theorem Block.isDead_iff (st : Statuses) (b : Block) :
    b.isDead st = true ↔ b.selectors ≠ [] ∧
      ∀ s ∈ b.selectors, Selector.isEligible s = true ∧ st.get? s = some .unused := by
  simp only [Block.isDead, Bool.and_eq_true, decide_eq_true_eq, List.all_eq_true, beq_iff_eq,
    Bool.not_eq_true']
  refine and_congr_right fun _ => forall₂_congr fun s _ => ?_
  constructor
  · exact fun h => ⟨h.1.2, h.2⟩
  · exact fun h => ⟨⟨((Selector.isEligible_iff s).1 h.1).2.1, h.1⟩, h.2⟩

/-- Rules with a selector that is not unused stay. -/
theorem Sheet.filter_blocks_prune {st : Statuses} {a : Text} (h : st.get? a ≠ some .unused) (s : Sheet) :
    (s.prune st).1.blocks.filter (a ∈ ·.selectors) = s.blocks.filter (a ∈ ·.selectors) := by
  rw [Sheet.blocks_prune, List.filter_filter]
  refine List.filter_congr fun b _ => ?_
  by_cases hb : a ∈ b.selectors
  · have hd : b.isDead st = false := by
      rw [Bool.eq_false_iff, Ne, Block.isDead_iff]
      exact fun hd => h (hd.2 a hb).2
    simp [hb, hd]
  · simp [hb]

/-- A sheet is pruned by the statuses of its own selectors. -/
theorem Sheet.prune_congr {st st' : Statuses} {s : Sheet} (h : ∀ a ∈ s.uses.map Prod.fst, st'.get? a = st.get? a) :
    s.prune st' = s.prune st := by
  have hb : ∀ b ∈ s.blocks, b.isDead st' = b.isDead st := by
    intro b hb
    have hall : ∀ a ∈ b.selectors, st'.get? a = st.get? a := fun a ha =>
      h a (s.map_fst_uses ▸ List.mem_flatMap.2 ⟨b, hb, ha⟩)
    rw [Bool.eq_iff_iff, Block.isDead_iff, Block.isDead_iff]
    exact and_congr_right fun _ => forall₂_congr fun a ha => by rw [hall a ha]
  simp only [Sheet.prune, pruneAll_congr s.children hb]

end StylePrune.Css
