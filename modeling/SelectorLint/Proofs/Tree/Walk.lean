import Mathlib.Data.List.Forall2
import SelectorLint.Proofs.Tree.Branch
import SelectorLint.Proofs.Tree.Order

/-!
# The walk of grafted branches

A tree of branches that were grafted onto the root is walked through branch by branch: the visits of the
walk are those of the parts of the branches, one for one (`shows_walk_graftAll`).
-/

namespace SelectorLint.Selector

open Branch

/-- The part of a branch is held by the node that is visited. -/
def Branch.Shows (tree : Tree) (visit : Visit) (part : Branch) : Prop :=
  ∃ parent position, part.Holds tree parent position visit.id

namespace Tree

variable {tree : Tree}

theorem children_of_holds {parent position id : Nat} {label : Label} {branches : List Branch}
    (h : (Branch.node label branches).Holds tree parent position id) :
    (tree.children id).toList = starts (id + 1) branches := by
  simp [children, h.1]

mutual

theorem shows_of_holds {parent position id : Nat} (enclosing : Enclosing) :
    ∀ {branch : Branch}, branch.Holds tree parent position id →
      List.Forall₂ (Shows tree) (⟨id, enclosing⟩ :: tree.walkFrom id) branch.parts
  | .node label branches, h => by
    refine .cons ⟨parent, position, h⟩ ?_
    rw [walkFrom_eq, children_of_holds h]
    exact shows_of_holdAll _ h.2

theorem shows_of_holdAll {parent position start : Nat} (enclosing : Enclosing) :
    ∀ {branches : List Branch}, HoldAll tree parent position start branches →
      List.Forall₂ (Shows tree)
        ((starts start branches).flatMap fun child => ⟨child, enclosing⟩ :: tree.walkFrom child)
        (partsAll branches)
  | [], _ => .nil
  | branch :: rest, h => by
    rw [starts, List.flatMap_cons, partsAll]
    exact List.rel_append (shows_of_holds enclosing h.1) (shows_of_holdAll enclosing h.2)

end

/-- The walk of a tree of branches shows the parts of the branches. -/
theorem shows_walk_graftAll (branches : List Branch) :
    List.Forall₂ (Shows (Tree.empty.graftAll 0 branches)) (Tree.empty.graftAll 0 branches).walk
      (partsAll branches) := by
  have hgrown := grown_graftAll (show 0 < Tree.empty.size by simp) branches
  have hchildren : ((Tree.empty.graftAll 0 branches).children 0).toList = starts 1 branches := by
    rw [hgrown.children_parent (by simp)]
    simp
  rw [walk, walkFrom_eq, hchildren]
  exact shows_of_holdAll _ hgrown.holds

mutual

theorem built_graft {tree : Tree} {parent : Nat} (h : tree.Built) (hparent : parent < tree.size) :
    ∀ branch : Branch, (tree.graft parent branch).Built
  | .node label branches => built_graftAll (h.append hparent _ _ _) (by simp) branches

theorem built_graftAll {tree : Tree} {parent : Nat} (h : tree.Built) (hparent : parent < tree.size) :
    ∀ branches : List Branch, (tree.graftAll parent branches).Built
  | [] => h
  | branch :: rest => by
    have hsize := (grown_graft hparent branch).size_eq
    exact built_graftAll (built_graft h hparent branch) (by omega) rest

end

end Tree

end SelectorLint.Selector
