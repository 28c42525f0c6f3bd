import StylePrune.Css.Sheet
import StylePrune.Selector
import StylePrune.Table

/-!
Deleting dead rules. A rule is dead when every one of its selectors is eligible and known to be
unused; a group goes when the last of its children goes.
-/

set_option autoImplicit false

namespace StylePrune

inductive Status where
  | used | unused
  deriving DecidableEq, Repr

abbrev Statuses := Table Text Status

namespace Css

def Block.isDead (st : Statuses) (b : Block) : Bool :=
  b.selectors ≠ [] && b.selectors.all fun s =>
    !Selector.isCritical s && Selector.isEligible s && st.get? s == some .unused

mutual
/-- What is left of a node, and how many selectors went with its dead rules. -/
def Node.prune (st : Statuses) : Node → Option Node × Nat
  | .block b => if b.isDead st then (none, b.selectors.length) else (some (.block b), 0)
  | .group g cs trailing =>
    let r := pruneAll st cs
    (if cs.isEmpty || !r.1.isEmpty then some (.group g r.1 trailing) else none, r.2)
  | .statement s => (some (.statement s), 0)

def pruneAll (st : Statuses) : List Node → List Node × Nat
  | [] => ([], 0)
  | n :: ns =>
    let r := n.prune st
    let rs := pruneAll st ns
    (r.1.toList ++ rs.1, r.2 + rs.2)
end

def Sheet.prune (st : Statuses) (s : Sheet) : Sheet × Nat :=
  let r := pruneAll st s.children
  (⟨r.1, s.trailing⟩, r.2)

end Css
end StylePrune
