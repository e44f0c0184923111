import SelectorLint.Proofs.Tree.Walk

/-!
# Numbers of grafted branches

In a tree of branches that were grafted onto the root, the nodes of a branch have numbers that follow each
other, those of a node before those of its children. So the walk meets the nodes in the order of their
numbers (`map_walk_graftAll`), and every node but the root is the top of some part of a branch, with the
tops of its children right below it (`exists_node_of_lt`).
-/

namespace SelectorLint.Selector

open Branch

namespace Tree

variable {tree : Tree}

/-- What a node of a tree says about itself. -/
def label? (tree : Tree) (id : Nat) : Option Label := tree.nodes[id]?.map Node.label

theorem kind?_eq_map_label? (tree : Tree) (id : Nat) : tree.kind? id = (tree.label? id).map Label.kind := by
  rw [label?, Option.map_map]
  rfl

theorem label?_of_holds {parent position id : Nat} {branch : Branch}
    (h : branch.Holds tree parent position id) : tree.label? id = some branch.label := by
  cases branch with
  | node label children =>
    rw [label?, h.1]
    rfl

theorem map_label?_starts {parent position start : Nat} {branches : List Branch}
    (h : HoldAll tree parent position start branches) :
    (starts start branches).map tree.label? = branches.map fun branch => some branch.label := by
  induction branches generalizing position start with
  | nil => rfl
  | cons branch rest ih => rw [starts, List.map_cons, label?_of_holds h.1, ih h.2, List.map_cons]

/-- The children of a node say about themselves what the branches do that they come from. -/
theorem map_label?_children {parent position id : Nat} {label : Label} {children : List Branch}
    (h : (Branch.node label children).Holds tree parent position id) :
    (tree.children id).toList.map tree.label? = children.map fun branch => some branch.label := by
  rw [children_of_holds h, map_label?_starts h.2]

/-! ## The walk -/

mutual

theorem map_walkFrom_of_holds {parent position id : Nat} : ∀ {branch : Branch},
    branch.Holds tree parent position id →
      id :: (tree.walkFrom id).map Visit.id = List.range' id branch.size
  | .node label children, h => by
    rw [walkFrom_eq, children_of_holds h, map_walkFrom_of_holdAll _ h.2, Branch.size, List.range'_succ]

theorem map_walkFrom_of_holdAll {parent position start : Nat} (enclosing : Enclosing) :
    ∀ {branches : List Branch}, HoldAll tree parent position start branches →
      ((starts start branches).flatMap fun child => ⟨child, enclosing⟩ :: tree.walkFrom child).map
        Visit.id = List.range' start (sizeAll branches)
  | [], _ => rfl
  | branch :: rest, h => by
    rw [starts, List.flatMap_cons, List.map_append, List.map_cons, map_walkFrom_of_holds h.1,
      map_walkFrom_of_holdAll enclosing h.2, sizeAll, List.range'_append_1]

end

section Graft

variable (branches : List Branch)

theorem children_zero_graftAll :
    ((Tree.empty.graftAll 0 branches).children 0).toList = starts 1 branches := by
  have hgrown := grown_graftAll (show 0 < Tree.empty.size by simp) branches
  rw [hgrown.children_parent (by simp)]
  simp

/-- The root says what it said in the empty tree. -/
theorem label?_zero_graftAll : (Tree.empty.graftAll 0 branches).label? 0 = some ⟨.root, "", 0⟩ := by
  have hgrown := grown_graftAll (show 0 < Tree.empty.size by simp) branches
  rw [label?, hgrown.parent_eq]
  rfl

theorem map_label?_groups_graftAll :
    ((Tree.empty.graftAll 0 branches).children 0).toList.map (Tree.empty.graftAll 0 branches).label? =
      branches.map fun branch => some branch.label := by
  have hgrown := grown_graftAll (show 0 < Tree.empty.size by simp) branches
  rw [children_zero_graftAll]
  exact map_label?_starts hgrown.holds

/-- The walk meets the nodes in the order in which they were added. -/
theorem map_walk_graftAll :
    (Tree.empty.graftAll 0 branches).walk.map Visit.id =
      List.range' 1 ((Tree.empty.graftAll 0 branches).size - 1) := by
  have hgrown := grown_graftAll (show 0 < Tree.empty.size by simp) branches
  rw [walk, walkFrom_eq, children_zero_graftAll, hgrown.size_eq, size_empty, Nat.add_sub_cancel_left]
  exact map_walkFrom_of_holdAll _ hgrown.holds

variable {branches}

/-- Every node but the root comes from a part of a branch. -/
theorem exists_holds_of_lt {id : Nat} (hne : id ≠ 0) (hlt : id < (Tree.empty.graftAll 0 branches).size) :
    ∃ part ∈ partsAll branches, ∃ parent position,
      part.Holds (Tree.empty.graftAll 0 branches) parent position id := by
  have hid : id ∈ (Tree.empty.graftAll 0 branches).walk.map Visit.id := by
    rw [map_walk_graftAll, List.mem_range'_1]
    omega
  obtain ⟨visit, hvisit, rfl⟩ := List.mem_map.1 hid
  obtain ⟨index, hindex, rfl⟩ := List.mem_iff_getElem.1 hvisit
  have hshows := shows_walk_graftAll branches
  have hlength := hshows.length_eq
  exact ⟨_, List.getElem_mem (by omega), List.Forall₂.get hshows hindex (by omega)⟩

/-- What a node and its children say about themselves is what a part of a branch says. -/
theorem exists_node_of_lt {id : Nat} (hne : id ≠ 0) (hlt : id < (Tree.empty.graftAll 0 branches).size) :
    ∃ label children, .node label children ∈ partsAll branches ∧
      (Tree.empty.graftAll 0 branches).kind? id = some label.kind ∧
      ((Tree.empty.graftAll 0 branches).children id).toList.map (Tree.empty.graftAll 0 branches).label? =
        children.map fun branch => some branch.label := by
  obtain ⟨part, hmem, parent, position, hholds⟩ := exists_holds_of_lt hne hlt
  cases part with
  | node label children =>
    refine ⟨label, children, hmem, ?_, map_label?_children hholds⟩
    rw [kind?_eq_map_label?, label?_of_holds hholds]
    rfl

theorem exists_node_of_kind? {id : Nat} {kind : Kind}
    (hkind : (Tree.empty.graftAll 0 branches).kind? id = some kind) (hne : kind ≠ .root) :
    ∃ label children, .node label children ∈ partsAll branches ∧ label.kind = kind ∧
      ((Tree.empty.graftAll 0 branches).children id).toList.map (Tree.empty.graftAll 0 branches).label? =
        children.map fun branch => some branch.label := by
  have hidne : id ≠ 0 := by
    intro heq
    rw [heq, kind?_eq_map_label?, label?_zero_graftAll] at hkind
    exact hne (Option.some.inj hkind).symm
  have hlt : id < (Tree.empty.graftAll 0 branches).size := by
    obtain ⟨node, hnode, -⟩ := Option.map_eq_some_iff.1 hkind
    exact lt_of_getElem? hnode
  obtain ⟨label, children, hmem, hlabel, hbelow⟩ := exists_node_of_lt hidne hlt
  rw [hkind] at hlabel
  exact ⟨label, children, hmem, (Option.some.inj hlabel).symm, hbelow⟩

end Graft

end Tree

end SelectorLint.Selector
