import SelectorLint.Proofs.Tree.Numbering

/-!
# Branches and trees in other places

A branch or a tree can be moved along a text, which changes the offsets of its nodes and nothing else
(`Branch.relocate`, `Tree.relocate`). Grafting commutes with it (`relocate_graftAll`).

A tree can also stand inside a larger one (`Embeds`): all its nodes but the root are there, with higher
numbers, at other offsets and with the root of the larger tree above them. Then the walks below the nodes
are the same (`Embeds.walkFrom_eq`). Two trees are joined by putting the groups of the second after those
of the first (`IsJoin`), which is what grafting the branches of both gives (`isJoin_graftAll`). Both trees
are embedded in their join, and its walk is that of the first and then that of the second
(`IsJoin.walk_eq`).
-/

namespace SelectorLint.Selector

/-! ## Along a text -/

namespace Branch

mutual

/-- The branch with its offsets changed. -/
def relocate (move : Nat → Nat) : Branch → Branch
  | node label children => node { label with offset := move label.offset } (relocateAll move children)

/-- The branches with their offsets changed. -/
def relocateAll (move : Nat → Nat) : List Branch → List Branch
  | [] => []
  | branch :: rest => branch.relocate move :: relocateAll move rest

end

variable (move : Nat → Nat)

theorem relocateAll_append (first second : List Branch) :
    relocateAll move (first ++ second) = relocateAll move first ++ relocateAll move second := by
  induction first with
  | nil => rfl
  | cons branch rest ih => rw [List.cons_append, relocateAll, relocateAll, ih, List.cons_append]

mutual

@[simp] theorem size_relocate : ∀ branch : Branch, (branch.relocate move).size = branch.size
  | node label children => by rw [relocate, size, size, sizeAll_relocateAll children]

@[simp] theorem sizeAll_relocateAll : ∀ branches : List Branch,
    sizeAll (relocateAll move branches) = sizeAll branches
  | [] => rfl
  | branch :: rest => by rw [relocateAll, sizeAll, sizeAll, size_relocate branch, sizeAll_relocateAll rest]

end

/-- The top nodes of branches that are numbered from a later number on. -/
theorem starts_relocateAll (up start : Nat) (branches : List Branch) :
    starts (up + start) (relocateAll move branches) = (starts start branches).map (up + ·) := by
  induction branches generalizing start with
  | nil => rfl
  | cons branch rest ih =>
    rw [relocateAll, starts, starts, List.map_cons, size_relocate, Nat.add_assoc, ih]

end Branch

open Branch

namespace Tree

/-- The tree with its offsets changed. -/
def relocate (move : Nat → Nat) (tree : Tree) : Tree where
  nodes := tree.nodes.map fun node => { node with offset := move node.offset }
  child_gt := by
    intro index h child hchild
    rw [Array.getElem_map] at hchild
    exact tree.child_gt index (by simpa using h) child hchild

variable (move : Nat → Nat)

@[simp] theorem size_relocate (tree : Tree) : (tree.relocate move).size = tree.size := by
  simp [relocate, size]

@[simp] theorem children_relocate (tree : Tree) (id : Nat) :
    (tree.relocate move).children id = tree.children id := by
  unfold children relocate
  rw [Array.getElem?_map]
  cases tree.nodes[id]? <;> rfl

theorem relocate_append (tree : Tree) (parent : Nat) (kind : Kind) (value : String) (offset : Nat) :
    (tree.append parent kind value offset).relocate move =
      (tree.relocate move).append parent kind value (move offset) := by
  have hnodes : ((tree.append parent kind value offset).relocate move).nodes =
      ((tree.relocate move).append parent kind value (move offset)).nodes := by
    simp only [append, size_relocate, children_relocate]
    simp only [relocate, Array.map_push]
    congr 1
    apply Array.ext
    · simp
    · intro index hleft hright
      simp only [Array.getElem_map, Array.getElem_modify]
      split
      all_goals rfl
  cases hleft : (tree.append parent kind value offset).relocate move
  cases hright : (tree.relocate move).append parent kind value (move offset)
  rw [hleft, hright] at hnodes
  cases hnodes
  rfl

mutual

/-- Grafting a branch that was moved along. -/
theorem relocate_graft : ∀ (branch : Branch) (tree : Tree) (parent : Nat),
    (tree.graft parent branch).relocate move = (tree.relocate move).graft parent (branch.relocate move)
  | .node label children, tree, parent => by
    rw [graft, relocate_graftAll children, relocate_append, Branch.relocate, graft, size_relocate]

theorem relocate_graftAll : ∀ (branches : List Branch) (tree : Tree) (parent : Nat),
    (tree.graftAll parent branches).relocate move =
      (tree.relocate move).graftAll parent (relocateAll move branches)
  | [], _, _ => rfl
  | branch :: rest, tree, parent => by
    rw [graftAll, relocate_graftAll rest, relocate_graft branch, relocateAll, graftAll]

end

end Tree

/-! ## Inside a larger tree -/

/-- A node as it stands in a larger tree: `up` is added to the numbers of nodes other than the root, `shift`
to its offset, and there are `places` more children of the root before it if it is one of them. -/
def Node.moved (up shift places : Nat) (node : Node) : Node where
  kind := node.kind
  value := node.value
  offset := shift + node.offset
  parent := node.parent.map fun parent => if parent = 0 then 0 else up + parent
  children := node.children.map (up + ·)
  position := if node.parent = some 0 then places + node.position else node.position

/-- A visit to a node with a number that is higher by `up`. -/
def Visit.raised (up : Nat) (visit : Visit) : Visit := ⟨up + visit.id, visit.enclosing⟩

namespace Tree

/-- The nodes of `part`, its root apart, are nodes of `whole`. -/
structure Embeds (part whole : Tree) (up shift places : Nat) : Prop where
  root : whole.kind? 0 = part.kind? 0
  nodes : ∀ id, 0 < id → id < part.size →
    whole.nodes[up + id]? = part.nodes[id]?.map (Node.moved up shift places)

theorem enclosingOfChildren_zero {tree : Tree} (h : tree.kind? 0 = some .root) :
    tree.enclosingOfChildren 0 = .structural := by
  rw [enclosingOfChildren, h]
  rfl

namespace Embeds

variable {part whole : Tree} {up shift places id : Nat}

theorem kind?_eq (h : Embeds part whole up shift places) (hpos : 0 < id) (hlt : id < part.size) :
    whole.kind? (up + id) = part.kind? id := by
  rw [kind?, kind?, h.nodes id hpos hlt, Option.map_map]
  rfl

theorem children_eq (h : Embeds part whole up shift places) (hpos : 0 < id) (hlt : id < part.size) :
    whole.children (up + id) = (part.children id).map (up + ·) := by
  have hnode : part.nodes[id]? = some part.nodes[id] := Array.getElem?_eq_getElem hlt
  simp only [children, h.nodes id hpos hlt, hnode, Option.map_some, Node.moved]

/-- What a node below the root stands in does not change. -/
theorem enclosingOfChildren_eq (h : Embeds part whole up shift places) (hlinked : Linked part)
    (hpos : 0 < id) (hlt : id < part.size) :
    whole.enclosingOfChildren (up + id) = part.enclosingOfChildren id := by
  have habove : (whole.parent? (up + id)).bind whole.kind? = (part.parent? id).bind part.kind? := by
    have hnode : part.nodes[id]? = some part.nodes[id] := Array.getElem?_eq_getElem hlt
    rw [parent?, parent?, h.nodes id hpos hlt, hnode, Option.map_some, Option.bind_some,
      Option.bind_some, Node.moved]
    cases hparent : part.nodes[id].parent with
    | none => rfl
    | some parent =>
      have hmem : id ∈ part.children parent :=
        Array.mem_of_getElem? (hlinked.up id part.nodes[id] parent hnode hparent)
      by_cases hzero : parent = 0
      · subst hzero
        exact h.root
      · rw [Option.map_some, if_neg hzero]
        exact h.kind?_eq (by omega) (lt_of_mem_children hmem).1
  rw [enclosingOfChildren, enclosingOfChildren, h.kind?_eq hpos hlt, habove]

theorem walkFrom_eq (h : Embeds part whole up shift places) (hlinked : Linked part) (hpos : 0 < id)
    (hlt : id < part.size) :
    whole.walkFrom (up + id) = (part.walkFrom id).map (Visit.raised up) := by
  induction id using part.children_induction with
  | step id ih =>
    rw [Tree.walkFrom_eq, Tree.walkFrom_eq, h.children_eq hpos hlt,
      h.enclosingOfChildren_eq hlinked hpos hlt, Array.toList_map, List.flatMap_map, List.map_flatMap]
    apply List.flatMap_congr
    intro child hmem
    have hchild : child ∈ part.children id := Array.mem_toList_iff.1 hmem
    rw [ih child hchild (by have := lt_of_mem_children hchild; omega) (hlinked.lt_of_mem hchild)]
    rfl

/-- The walk of the tree, in the larger one. -/
theorem flatMap_children_zero (h : Embeds part whole up shift places) (hlinked : Linked part)
    (hroot : part.kind? 0 = some .root) :
    (((part.children 0).toList.map (up + ·)).flatMap fun child =>
      ⟨child, .structural⟩ :: whole.walkFrom child) = part.walk.map (Visit.raised up) := by
  rw [walk, Tree.walkFrom_eq, enclosingOfChildren_zero hroot, List.flatMap_map, List.map_flatMap]
  apply List.flatMap_congr
  intro child hmem
  have hchild : child ∈ part.children 0 := Array.mem_toList_iff.1 hmem
  rw [h.walkFrom_eq hlinked (lt_of_mem_children hchild).2 (hlinked.lt_of_mem hchild)]
  rfl

end Embeds

/-! ## Two trees in one -/

/-- The tree has the groups of `left` and after them those of `right`, which are `shift` further along. -/
structure IsJoin (left right : Tree) (shift : Nat) (joined : Tree) : Prop where
  size_eq : joined.size + 1 = left.size + right.size
  root : joined.nodes[0]? = left.nodes[0]?.map fun node =>
    { node with children := node.children ++ right.groups.map (left.size - 1 + ·) }
  left_eq : ∀ id, 0 < id → id < left.size → joined.nodes[id]? = left.nodes[id]?
  right_eq : ∀ id, 0 < id → id < right.size → joined.nodes[left.size - 1 + id]? =
    right.nodes[id]?.map (Node.moved (left.size - 1) shift left.groups.size)

@[simp] theorem moved_zero : Node.moved 0 0 0 = id := by
  funext node
  cases node with
  | mk kind value offset parent children position =>
    cases parent with
    | none => simp [Node.moved]
    | some parent => simpa [Node.moved] using Eq.symm

@[simp] theorem raised_zero : Visit.raised 0 = id := by
  funext visit
  simp [Visit.raised]

namespace IsJoin

variable {left right joined : Tree} {shift : Nat}

theorem kind?_zero (h : IsJoin left right shift joined) : joined.kind? 0 = left.kind? 0 := by
  rw [kind?, kind?, h.root, Option.map_map]
  rfl

theorem embeds_left (h : IsJoin left right shift joined) : Embeds left joined 0 0 0 where
  root := h.kind?_zero
  nodes number hpos hlt := by
    rw [Nat.zero_add, h.left_eq number hpos hlt, moved_zero, Option.map_id_apply]

theorem embeds_right (h : IsJoin left right shift joined) (hroot : right.kind? 0 = left.kind? 0) :
    Embeds right joined (left.size - 1) shift left.groups.size where
  root := h.kind?_zero.trans hroot.symm
  nodes := h.right_eq

theorem children_zero (h : IsJoin left right shift joined) (hpos : 0 < left.size) :
    joined.children 0 = left.children 0 ++ (right.children 0).map (left.size - 1 + ·) := by
  have hnode : left.nodes[0]? = some left.nodes[0] := Array.getElem?_eq_getElem hpos
  simp only [children, h.root, hnode, Option.map_some, groups]

/-- The walk goes through the first tree and then through the second one. -/
theorem walk_eq (h : IsJoin left right shift joined) (hleft : Linked left) (hright : Linked right)
    (hleftRoot : left.kind? 0 = some .root) (hrightRoot : right.kind? 0 = some .root) :
    joined.walk = left.walk ++ right.walk.map (Visit.raised (left.size - 1)) := by
  have hpos : 0 < left.size := by
    obtain ⟨node, hnode, -⟩ := Option.map_eq_some_iff.1 hleftRoot
    exact lt_of_getElem? hnode
  have hfirst := h.embeds_left.flatMap_children_zero hleft hleftRoot
  have hsecond := (h.embeds_right (hrightRoot.trans hleftRoot.symm)).flatMap_children_zero hright hrightRoot
  rw [walk, Tree.walkFrom_eq, h.children_zero hpos, Array.toList_append, List.flatMap_append,
    enclosingOfChildren_zero (h.kind?_zero.trans hleftRoot), Array.toList_map, hsecond]
  simpa using hfirst

end IsJoin

/-! ## Grafting -/

section Graft

variable {part whole : Tree} {up shift places : Nat}

mutual

/-- A branch in one tree and the same branch, further along, in another. -/
theorem getElem?_of_holds {parent position id : Nat} (hpos : 0 < id) : ∀ {branch : Branch},
    branch.Holds part parent position id →
    (branch.relocate (shift + ·)).Holds whole (if parent = 0 then 0 else up + parent)
      (if parent = 0 then places + position else position) (up + id) →
    ∀ i, id ≤ i → i < id + branch.size →
      whole.nodes[up + i]? = part.nodes[i]?.map (Node.moved up shift places)
  | .node label children, h, hmoved, i, hlow, hhigh => by
    rw [Branch.size] at hhigh
    by_cases hself : i = id
    · rw [hself, h.1, hmoved.1, Nat.add_assoc, starts_relocateAll]
      simp [Node.moved]
    · refine getElem?_of_holdAll (by omega) h.2 ?_ i (by omega) (by omega)
      rw [if_neg (by omega), if_neg (by omega)]
      exact hmoved.2

theorem getElem?_of_holdAll {parent position start : Nat} (hpos : 0 < start) :
    ∀ {branches : List Branch}, HoldAll part parent position start branches →
    HoldAll whole (if parent = 0 then 0 else up + parent)
      (if parent = 0 then places + position else position) (up + start)
      (relocateAll (shift + ·) branches) →
    ∀ i, start ≤ i → i < start + sizeAll branches →
      whole.nodes[up + i]? = part.nodes[i]?.map (Node.moved up shift places)
  | [], _, _, i, hlow, hhigh => by
    rw [sizeAll] at hhigh
    omega
  | branch :: rest, h, hmoved, i, hlow, hhigh => by
    rw [sizeAll] at hhigh
    by_cases hfirst : i < start + branch.size
    · exact getElem?_of_holds hpos h.1 hmoved.1 i hlow hfirst
    · refine getElem?_of_holdAll (by omega) h.2 ?_ i (by omega) (by omega)
      have hrest := hmoved.2
      rw [Branch.size_relocate, Nat.add_assoc] at hrest
      have hposition : (if parent = 0 then places + position else position) + 1 =
          if parent = 0 then places + (position + 1) else position + 1 := by
        split
        all_goals omega
      rw [← hposition]
      exact hrest

end

/-- Grafting the branches of two trees joins the trees. -/
theorem isJoin_graftAll (first second : List Branch) (shift : Nat) :
    IsJoin (Tree.empty.graftAll 0 first) (Tree.empty.graftAll 0 second) shift
      (Tree.empty.graftAll 0 (first ++ relocateAll (shift + ·) second)) := by
  have hleft := grown_graftAll (show 0 < Tree.empty.size by simp) first
  have hright := grown_graftAll (show 0 < Tree.empty.size by simp) second
  have hpos : 0 < (Tree.empty.graftAll 0 first).size := by
    rw [hleft.size_eq, size_empty]
    omega
  have hgrown := grown_graftAll hpos (relocateAll (shift + ·) second)
  rw [← graftAll_append] at hgrown
  have hstart : (Tree.empty.graftAll 0 first).size = (Tree.empty.graftAll 0 first).size - 1 + 1 := by omega
  refine ⟨?_, ?_, ?_, ?_⟩
  · rw [hgrown.size_eq, hright.size_eq, sizeAll_relocateAll, size_empty]
    omega
  · have hgroups : (starts 1 second).toArray = (Tree.empty.graftAll 0 second).groups := by
      rw [← children_zero_graftAll]
      rfl
    rw [hgrown.parent_eq, hstart, starts_relocateAll, ← List.map_toArray, hgroups]
    rfl
  · intro id hid hlt
    exact hgrown.other_eq id hlt (by omega)
  · intro id hid hlt
    rw [hright.size_eq, size_empty] at hlt
    have hholds := hgrown.holds
    rw [hstart] at hholds
    exact getElem?_of_holdAll Nat.one_pos hright.holds hholds id hid hlt

end Graft

end Tree

end SelectorLint.Selector
