import SelectorLint.Proofs.Selector.Arrangement
import SelectorLint.Proofs.Tree.Relocation

/-!
# Items at other offsets

The branches of items depend on where the items stand only in the offsets of their nodes: further along,
they are the same branches, further along (`listBranches_add`).
-/

namespace SelectorLint.Selector

open Branch

theorem relocateAll_groupBranch (move : Nat → Nat) (branches : List Branch) :
    relocateAll move (groupBranch branches) = groupBranch (relocateAll move branches) := by
  cases branches with
  | nil => rfl
  | cons child rest => cases child; rfl

mutual

/-- The branches of items that stand further along. -/
theorem itemBranches_add (shift : Nat) : ∀ (items : List Item) (joins : Bool) (offset : Nat),
    itemBranches joins (shift + offset) items =
      relocateAll (shift + ·) (itemBranches joins offset items)
  | [], _, _ => by
    rw [itemBranches, itemBranches]
    rfl
  | .blank c :: rest, joins, offset => by
    rw [itemBranches, itemBranches, Nat.add_assoc, itemBranches_add shift rest, relocateAll_append]
    congr 1
    split
    all_goals rfl
  | .part piece :: rest, joins, offset => by
    rw [itemBranches, itemBranches, Nat.add_assoc, itemBranches_add shift rest]
    rfl
  | .call double name first others :: rest, joins, offset => by
    rw [itemBranches, itemBranches]
    simp only [Nat.add_assoc]
    rw [itemBranches_add shift rest, itemBranches_add shift first, othersBranches_add shift others,
      ← relocateAll_groupBranch, ← relocateAll_append]
    rfl

theorem othersBranches_add (shift : Nat) : ∀ (others : List (List Item)) (offset : Nat),
    othersBranches (shift + offset) others = relocateAll (shift + ·) (othersBranches offset others)
  | [], _ => by
    rw [othersBranches, othersBranches]
    rfl
  | group :: rest, offset => by
    rw [othersBranches, othersBranches]
    simp only [Nat.add_assoc]
    rw [itemBranches_add shift group, othersBranches_add shift rest, relocateAll_append,
      relocateAll_groupBranch]

end

theorem listBranches_add (shift : Nat) (first : List Item) (others : List (List Item)) (offset : Nat) :
    listBranches (shift + offset) first others =
      relocateAll (shift + ·) (listBranches offset first others) := by
  rw [listBranches, listBranches, Nat.add_assoc, itemBranches_add, othersBranches_add,
    relocateAll_append, relocateAll_groupBranch]

end SelectorLint.Selector
