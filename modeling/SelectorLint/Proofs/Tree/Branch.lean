import SelectorLint.Proofs.Tree.Growth

/-!
# Branches

A branch is a part of a tree as a nested structure, without numbers. `Tree.graft` adds a branch under a
node, a parent before its children and these one after the other, so that the numbers of its nodes are
those of a walk.

What a tree has from a grafted branch is said by `Branch.Holds`: from a number on, the nodes of the tree
are those of the branch in order, and each names its parent, its children and its position.
-/

namespace SelectorLint.Selector

/-- What a node says about itself. -/
structure Label where
  kind : Kind
  value : String
  offset : Nat
  deriving DecidableEq, Repr

/-- What a node of a tree says about itself. -/
def Node.label (node : Node) : Label := ⟨node.kind, node.value, node.offset⟩

/-- A node and all below it. -/
inductive Branch where
  | node (label : Label) (children : List Branch)

namespace Branch

/-- What the top node says about itself. -/
def label : Branch → Label
  | node label _ => label

/-- A branch of one node. -/
def leaf (label : Label) : Branch := node label []

mutual

/-- The number of nodes. -/
def size : Branch → Nat
  | node _ children => sizeAll children + 1

/-- The number of nodes of all the branches. -/
def sizeAll : List Branch → Nat
  | [] => 0
  | branch :: rest => branch.size + sizeAll rest

end

mutual

/-- The branch and all branches in it, each before those in it. -/
def parts : Branch → List Branch
  | node label children => node label children :: partsAll children

/-- The branches and all branches in them. -/
def partsAll : List Branch → List Branch
  | [] => []
  | branch :: rest => branch.parts ++ partsAll rest

end

/-- The numbers of the top nodes, if the nodes of the branches are numbered from `start` on. -/
def starts (start : Nat) : List Branch → List Nat
  | [] => []
  | branch :: rest => start :: starts (start + branch.size) rest

theorem partsAll_append (first second : List Branch) :
    partsAll (first ++ second) = partsAll first ++ partsAll second := by
  induction first with
  | nil => simp [partsAll]
  | cons branch rest ih =>
    rw [List.cons_append, partsAll, partsAll, ih, List.append_assoc]

/-! ## Branches in a tree -/

mutual

/-- The nodes of the tree from `id` on are those of the branch, under the node `parent` and at `position`
in its child list. -/
def Holds (tree : Tree) (parent position id : Nat) : Branch → Prop
  | node label children =>
    tree.nodes[id]? =
        some ⟨label.kind, label.value, label.offset, some parent, (starts (id + 1) children).toArray,
          position⟩ ∧
      HoldAll tree id 0 (id + 1) children

/-- The nodes of the tree from `start` on are those of the branches, which stand one after the other under
the node `parent`, from `position` in its child list on. -/
def HoldAll (tree : Tree) (parent position start : Nat) : List Branch → Prop
  | [] => True
  | branch :: rest =>
    branch.Holds tree parent position start ∧
      HoldAll tree parent (position + 1) (start + branch.size) rest

end

mutual

/-- Only the nodes of the branch matter. -/
theorem Holds.congr {tree other : Tree} {parent position id : Nat} :
    ∀ {branch : Branch}, branch.Holds tree parent position id →
      (∀ i, id ≤ i → i < id + branch.size → other.nodes[i]? = tree.nodes[i]?) →
      branch.Holds other parent position id
  | node label children, ⟨hnode, hchildren⟩, heq => by
    rw [size] at heq
    refine ⟨?_, HoldAll.congr hchildren fun i hlow hhigh => heq i (by omega) (by omega)⟩
    rw [heq id (Nat.le_refl _) (by omega), hnode]

theorem HoldAll.congr {tree other : Tree} {parent position start : Nat} :
    ∀ {branches : List Branch}, HoldAll tree parent position start branches →
      (∀ i, start ≤ i → i < start + sizeAll branches → other.nodes[i]? = tree.nodes[i]?) →
      HoldAll other parent position start branches
  | [], _, _ => trivial
  | branch :: rest, ⟨hbranch, hrest⟩, heq => by
    rw [sizeAll] at heq
    exact ⟨Holds.congr hbranch fun i hlow hhigh => heq i hlow (by omega),
      HoldAll.congr hrest fun i hlow hhigh => heq i (by omega) (by omega)⟩

end

end Branch

/-! ## Grafting -/

namespace Tree

open Branch

mutual

/-- Adds a branch as the last child of `parent`. -/
def graft : Tree → Nat → Branch → Tree
  | tree, parent, .node label children =>
    graftAll (tree.append parent label.kind label.value label.offset) tree.size children

/-- Adds branches as the last children of `parent`. -/
def graftAll : Tree → Nat → List Branch → Tree
  | tree, _, [] => tree
  | tree, parent, branch :: rest => graftAll (graft tree parent branch) parent rest

end

theorem graftAll_append (tree : Tree) (parent : Nat) (first second : List Branch) :
    tree.graftAll parent (first ++ second) = (tree.graftAll parent first).graftAll parent second := by
  induction first generalizing tree with
  | nil => rfl
  | cons branch rest ih => exact ih (tree.graft parent branch)

/-- The tree `after` is the tree `before` with branches added under `parent`. -/
structure Grown (before after : Tree) (parent : Nat) (branches : List Branch) : Prop where
  size_eq : after.size = before.size + sizeAll branches
  parent_eq : after.nodes[parent]? = before.nodes[parent]?.map fun node =>
    { node with children := node.children ++ (starts before.size branches).toArray }
  other_eq : ∀ id, id < before.size → id ≠ parent → after.nodes[id]? = before.nodes[id]?
  holds : HoldAll after parent (before.children parent).size before.size branches

namespace Grown

variable {before middle after : Tree} {parent : Nat} {branches more : List Branch}

theorem refl (before : Tree) (parent : Nat) : Grown before before parent [] where
  size_eq := by simp [sizeAll]
  parent_eq := by cases before.nodes[parent]? <;> simp [starts]
  other_eq := fun _ _ _ => rfl
  holds := trivial

theorem children_parent (h : Grown before after parent branches) (hparent : parent < before.size) :
    after.children parent = before.children parent ++ (starts before.size branches).toArray := by
  have hnode : before.nodes[parent]? = some before.nodes[parent] :=
    Array.getElem?_eq_getElem hparent
  simp only [children, h.parent_eq, hnode, Option.map_some]

/-- A branch in front of others. -/
theorem cons {branch : Branch} (hparent : parent < before.size)
    (hfirst : Grown before middle parent [branch]) (hrest : Grown middle after parent branches) :
    Grown before after parent (branch :: branches) := by
  have hsize : middle.size = before.size + branch.size := by simpa [sizeAll] using hfirst.size_eq
  refine ⟨?_, ?_, ?_, ?_⟩
  · rw [hrest.size_eq, hsize, sizeAll, Nat.add_assoc]
  · rw [hrest.parent_eq, hfirst.parent_eq, hsize]
    cases before.nodes[parent]? <;> simp [starts]
  · intro id hid hne
    rw [hrest.other_eq id (by omega) hne, hfirst.other_eq id hid hne]
  · refine ⟨hfirst.holds.1.congr fun i hlow hhigh => ?_, ?_⟩
    · exact hrest.other_eq i (by omega) (by omega)
    · have hposition : (middle.children parent).size = (before.children parent).size + 1 := by
        simp [hfirst.children_parent hparent, starts]
      rw [← hposition, ← hsize]
      exact hrest.holds

/-- A node whose children have been added. -/
theorem node {label : Label} (hparent : parent < before.size)
    (h : Grown (before.append parent label.kind label.value label.offset) after before.size branches) :
    Grown before after parent [.node label branches] := by
  have hself := h.parent_eq
  rw [getElem?_append_self] at hself
  refine ⟨?_, ?_, ?_, ?_, trivial⟩
  · rw [h.size_eq, size_append, sizeAll, sizeAll, Branch.size]
    omega
  · rw [h.other_eq parent (by simp; omega) (by omega), getElem?_append_parent hparent]
    simp [starts]
  · intro id hid hne
    rw [h.other_eq id (by simp; omega) (by omega), getElem?_append_of_ne (by omega) hne]
  · refine ⟨?_, ?_⟩
    · rw [hself]
      simp
    · have hchildren : ((before.append parent label.kind label.value label.offset).children
          before.size).size = 0 := by
        rw [children_append_of_ne (by omega), children_of_size_le (Nat.le_refl _)]
        rfl
      have hholds := h.holds
      rw [hchildren, size_append] at hholds
      exact hholds

end Grown

mutual

theorem grown_graft {tree : Tree} {parent : Nat} (hparent : parent < tree.size) :
    ∀ branch : Branch, Grown tree (tree.graft parent branch) parent [branch]
  | .node _ children => Grown.node hparent (grown_graftAll (by simp) children)

theorem grown_graftAll {tree : Tree} {parent : Nat} (hparent : parent < tree.size) :
    ∀ branches : List Branch, Grown tree (tree.graftAll parent branches) parent branches
  | [] => .refl tree parent
  | branch :: rest => by
    have hfirst := grown_graft hparent branch
    have hsize := hfirst.size_eq
    exact .cons hparent hfirst (grown_graftAll (by omega) rest)

end

end Tree

end SelectorLint.Selector
