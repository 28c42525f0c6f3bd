import StylePrune.Proofs.Css.Prune

/-!
What pruning leaves of a tree. A node goes if it is a dead rule, or a group that had children and lost them all; every
other node keeps its own text. The selectors that are left are those of the rules that are not dead, in order and under
the same media, and pruning again finds nothing more.
-/

set_option autoImplicit false

namespace StylePrune.Css

variable {st : Statuses} {n : Node} {ns ms : List Node} {media : Option Text}

/-- A dead rule, or a group with children that all vanish. -/
inductive Node.Vanishes (st : Statuses) : Node → Prop
  | block {b : Block} (h : b.isDead st = true) : Vanishes st (.block b)
  | group {g : Group} {cs : List Node} {trailing : Text} (hne : cs ≠ []) (h : ∀ c ∈ cs, Vanishes st c) :
      Vanishes st (.group g cs trailing)

/-- The second nodes are the first without those that vanish, at every depth. What stays keeps all text of its own. -/
inductive Trimmed (st : Statuses) : List Node → List Node → Prop
  | nil : Trimmed st [] []
  | gone {n : Node} {ns ms : List Node} (hn : n.Vanishes st) (h : Trimmed st ns ms) : Trimmed st (n :: ns) ms
  | block {b : Block} {ns ms : List Node} (hn : ¬ (Node.block b).Vanishes st) (h : Trimmed st ns ms) :
      Trimmed st (.block b :: ns) (.block b :: ms)
  | group {g : Group} {cs cs' : List Node} {trailing : Text} {ns ms : List Node}
      (hn : ¬ (Node.group g cs trailing).Vanishes st) (hc : Trimmed st cs cs') (h : Trimmed st ns ms) :
      Trimmed st (.group g cs trailing :: ns) (.group g cs' trailing :: ms)
  | statement {s : Statement} {ns ms : List Node} (h : Trimmed st ns ms) :
      Trimmed st (.statement s :: ns) (.statement s :: ms)

namespace Node

theorem vanishes_block_iff {b : Block} : (Node.block b).Vanishes st ↔ b.isDead st = true :=
  ⟨fun | .block h => h, .block⟩

theorem vanishes_group_iff {g : Group} {cs : List Node} {trailing : Text} :
    (Node.group g cs trailing).Vanishes st ↔ cs ≠ [] ∧ ∀ c ∈ cs, c.Vanishes st :=
  ⟨fun | .group hne h => ⟨hne, h⟩, fun h => .group h.1 h.2⟩

theorem not_vanishes_statement {s : Statement} : ¬ (Node.statement s).Vanishes st := nofun

end Node

mutual
/-- Just the nodes that vanish are taken out. -/
theorem Node.prune_eq_none_iff (st : Statuses) (n : Node) : (n.prune st).1 = none ↔ n.Vanishes st := by
  cases n with
  | block b =>
    rw [Node.vanishes_block_iff, Node.prune]
    split <;> simp_all
  | group g cs trailing =>
    have ih := pruneAll_eq_nil_iff st cs
    rw [Node.vanishes_group_iff, ← ih, Node.prune]
    by_cases hcs : cs = []
    · simp [hcs]
    · simp [hcs]
  | statement s => exact iff_of_false nofun Node.not_vanishes_statement

theorem pruneAll_eq_nil_iff (st : Statuses) (ns : List Node) :
    (pruneAll st ns).1 = [] ↔ ∀ n ∈ ns, n.Vanishes st := by
  cases ns with
  | nil => exact iff_of_true rfl (List.forall_mem_nil _)
  | cons n ns =>
    have hn := n.prune_eq_none_iff st
    have ih := pruneAll_eq_nil_iff st ns
    rw [List.forall_mem_cons, ← hn, ← ih, pruneAll]
    simp
end

mutual
theorem Node.trimmed_prune (st : Statuses) (n : Node) {ns ms : List Node} (h : Trimmed st ns ms) :
    Trimmed st (n :: ns) ((n.prune st).1.toList ++ ms) := by
  by_cases hv : n.Vanishes st
  · rw [(n.prune_eq_none_iff st).2 hv]
    exact .gone hv h
  · cases n with
    | block b =>
      have hd : ¬ b.isDead st = true := mt Node.vanishes_block_iff.2 hv
      rw [Node.prune, if_neg hd]
      exact .block hv h
    | group g cs trailing =>
      have ih := trimmed_pruneAll st cs
      have hk : ((Node.group g cs trailing).prune st).1 ≠ none := mt (Node.prune_eq_none_iff st _).1 hv
      rw [Node.prune] at hk ⊢
      dsimp only at hk ⊢
      split at hk
      · rename_i hstays
        rw [if_pos hstays]
        exact .group hv ih h
      · exact absurd rfl hk
    | statement s => exact .statement h

theorem trimmed_pruneAll (st : Statuses) (ns : List Node) : Trimmed st ns (pruneAll st ns).1 := by
  cases ns with
  | nil => exact .nil
  | cons n ns => exact n.trimmed_prune st (trimmed_pruneAll st ns)
end

/-! ## What is left of the selectors -/

mutual
/-- The style rules in a node at every depth, in order, with the media under which they hold. -/
def Node.rules (media : Option Text) : Node → List (Block × Option Text)
  | .block b => [(b, media)]
  | .group g cs _ => rulesAll (g.mediaWithin media) cs
  | .statement _ => []

def rulesAll (media : Option Text) : List Node → List (Block × Option Text)
  | [] => []
  | n :: ns => n.rules media ++ rulesAll media ns
end

def Sheet.rules (s : Sheet) : List (Block × Option Text) := rulesAll none s.children

def Block.usesUnder (r : Block × Option Text) : List Use := r.1.selectors.map (·, r.2)

mutual
theorem Node.uses_eq (media : Option Text) (n : Node) : n.uses media = (n.rules media).flatMap Block.usesUnder := by
  cases n with
  | block b => simp [Node.uses, Node.rules, Block.usesUnder]
  | group g cs trailing => exact usesAll_eq (g.mediaWithin media) cs
  | statement s => rfl

/-- What the nodes declare, their rules declare. -/
theorem usesAll_eq (media : Option Text) (ns : List Node) :
    usesAll media ns = (rulesAll media ns).flatMap Block.usesUnder := by
  cases ns with
  | nil => rfl
  | cons n ns =>
    have hn := n.uses_eq media
    have ih := usesAll_eq media ns
    simp only [usesAll, rulesAll, List.flatMap_append, hn, ih]
end

theorem filter_rulesAll_of_vanishes (h : ∀ n ∈ ns, (n.rules media).filter (fun r => !r.1.isDead st) = []) :
    (rulesAll media ns).filter (fun r => !r.1.isDead st) = [] := by
  induction ns with
  | nil => rfl
  | cons n ns ih =>
    obtain ⟨hn, hns⟩ := List.forall_mem_cons.1 h
    rw [rulesAll, List.filter_append, hn, ih hns, List.append_nil]

/-- All rules in a node that vanishes are dead. -/
theorem Node.Vanishes.filter_rules (h : n.Vanishes st) (media : Option Text) :
    (n.rules media).filter (fun r => !r.1.isDead st) = [] := by
  induction h generalizing media with
  | block hd => simp [Node.rules, hd]
  | group hne _ ih => exact filter_rulesAll_of_vanishes fun c hc => ih c hc _

theorem Trimmed.rulesAll_eq (h : Trimmed st ns ms) (media : Option Text) :
    rulesAll media ms = (rulesAll media ns).filter fun r => !r.1.isDead st := by
  induction h generalizing media with
  | nil => rfl
  | gone hn _ ih => rw [rulesAll, List.filter_append, hn.filter_rules, List.nil_append, ih]
  | @block b _ _ hn _ ih =>
    have hd : b.isDead st = false := Bool.eq_false_iff.2 (mt Node.vanishes_block_iff.2 hn)
    simp [rulesAll, Node.rules, hd, ih]
  | group _ _ _ ihc ih => simp only [rulesAll, Node.rules, List.filter_append, ihc, ih]
  | statement _ ih => simpa [rulesAll, Node.rules] using ih media

mutual
theorem Node.length_uses_prune (st : Statuses) (media : Option Text) (n : Node) :
    (usesAll media (n.prune st).1.toList).length + (n.prune st).2 = (n.uses media).length := by
  cases n with
  | block b =>
    rw [Node.prune]
    split <;> simp [usesAll, Node.uses]
  | group g cs trailing =>
    have ih := length_usesAll_pruneAll st (g.mediaWithin media) cs
    simp only [Node.prune, Node.uses]
    split
    · simpa [usesAll, Node.uses] using ih
    · rename_i he
      have hr : (pruneAll st cs).1 = [] := by simp at he; exact he.2
      simpa [usesAll, hr] using ih
  | statement s => simp [Node.prune, usesAll, Node.uses]

/-- The selectors that are counted are those that went. -/
theorem length_usesAll_pruneAll (st : Statuses) (media : Option Text) (ns : List Node) :
    (usesAll media (pruneAll st ns).1).length + (pruneAll st ns).2 = (usesAll media ns).length := by
  cases ns with
  | nil => rfl
  | cons n ns =>
    have hn := n.length_uses_prune st media
    have ih := length_usesAll_pruneAll st media ns
    have happend : usesAll media ((n.prune st).1.toList ++ (pruneAll st ns).1) =
        usesAll media (n.prune st).1.toList ++ usesAll media (pruneAll st ns).1 := by
      cases (n.prune st).1 <;> simp [usesAll]
    simp only [pruneAll, usesAll, happend, List.length_append]
    omega
end

/-- Pruning again finds nothing more. -/
theorem pruneAll_pruneAll (st : Statuses) (ns : List Node) :
    pruneAll st (pruneAll st ns).1 = ((pruneAll st ns).1, 0) := by
  refine pruneAll_of_alive st _ fun b hb => ?_
  rw [blocksAll_pruneAll, List.mem_filter] at hb
  simpa using hb.2

/-- Pruning takes out the nodes that vanish and changes no other: the selectors left are those of the rules that are not
dead, in order and under the same media; as many are counted as went; what is left is not pruned any further. -/
theorem Sheet.prune_exact (st : Statuses) (s : Sheet) :
    (s.uses = s.rules.flatMap Block.usesUnder ∧
      (s.prune st).1.uses = (s.rules.filter fun r => !r.1.isDead st).flatMap Block.usesUnder) ∧
    (s.prune st).1.uses.length + (s.prune st).2 = s.uses.length ∧
    (Trimmed st s.children (s.prune st).1.children ∧ (s.prune st).1.trailing = s.trailing) ∧
    (s.prune st).1.prune st = ((s.prune st).1, 0) := by
  have htrimmed := trimmed_pruneAll st s.children
  refine ⟨⟨usesAll_eq none s.children, ?_⟩, length_usesAll_pruneAll st none s.children, ⟨htrimmed, rfl⟩, ?_⟩
  · rw [Sheet.uses, usesAll_eq]
    exact congrArg (List.flatMap Block.usesUnder) (htrimmed.rulesAll_eq none)
  · have hagain := pruneAll_pruneAll st s.children
    simp only [Sheet.prune, hagain]

end StylePrune.Css
