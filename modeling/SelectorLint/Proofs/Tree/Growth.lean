import SelectorLint.Selector.Tree

/-!
# How trees grow

What `Tree.append` does to each view of a tree: its size, its nodes, the child list, the kind and the
parent of a node. The node that is added comes last, its parent gets one more child, and nothing else
changes. The walk of a tree goes through the children of a node and what is below each (`walkFrom_eq`).
-/

namespace SelectorLint.Selector.Tree

variable {tree : Tree} {parent : Nat} {kind : Kind} {value : String} {offset : Nat}

@[simp] theorem size_empty : empty.size = 1 := rfl

@[simp] theorem children_empty (id : Nat) : empty.children id = #[] := by
  cases id <;> rfl

@[simp] theorem size_append : (tree.append parent kind value offset).size = tree.size + 1 := by
  simp [size, append]

theorem children_of_size_le {id : Nat} (h : tree.size ≤ id) : tree.children id = #[] := by
  rw [children, Array.getElem?_eq_none h]

/-- The node that was added. -/
@[simp] theorem getElem?_append_self :
    (tree.append parent kind value offset).nodes[tree.size]? =
      some ⟨kind, value, offset, some parent, #[], (tree.children parent).size⟩ := by
  simp only [append, size, Array.getElem?_push, Array.size_modify, if_true]

/-- The parent of the node that was added. -/
theorem getElem?_append_parent (hparent : parent < tree.size) :
    (tree.append parent kind value offset).nodes[parent]? =
      tree.nodes[parent]?.map fun node => { node with children := node.children.push tree.size } := by
  have hne : parent ≠ tree.nodes.size := Nat.ne_of_lt hparent
  simp [append, size, Array.getElem?_push, Array.getElem?_modify, hne]

/-- All other nodes. -/
theorem getElem?_append_of_ne {id : Nat} (hself : id ≠ tree.size) (hparent : id ≠ parent) :
    (tree.append parent kind value offset).nodes[id]? = tree.nodes[id]? := by
  have hself : id ≠ tree.nodes.size := hself
  simp [append, Array.getElem?_push, Array.getElem?_modify, hself, hparent.symm]

theorem children_append_parent (hparent : parent < tree.size) :
    (tree.append parent kind value offset).children parent =
      (tree.children parent).push tree.size := by
  have hnode : tree.nodes[parent]? = some tree.nodes[parent] := Array.getElem?_eq_getElem hparent
  simp only [children, getElem?_append_parent hparent, hnode, Option.map_some]

@[simp] theorem children_append_self :
    (tree.append parent kind value offset).children tree.size = #[] := by
  rw [children, getElem?_append_self]

theorem children_append_of_ne {id : Nat} (hparent : id ≠ parent) :
    (tree.append parent kind value offset).children id = tree.children id := by
  by_cases hself : id = tree.size
  · subst hself
    rw [children_of_size_le (Nat.le_refl _), children_append_self]
  · simp only [children, getElem?_append_of_ne hself hparent]

theorem size_children_le_append (id : Nat) :
    (tree.children id).size ≤ ((tree.append parent kind value offset).children id).size := by
  by_cases hne : id = parent
  · subst hne
    by_cases hlt : id < tree.size
    · simp [children_append_parent hlt]
    · simp [children_of_size_le (Nat.le_of_not_lt hlt)]
  · simp [children_append_of_ne hne]

theorem walkFrom_eq (tree : Tree) (id : Nat) :
    tree.walkFrom id = (tree.children id).toList.flatMap fun child =>
      ⟨child, tree.enclosingOfChildren id⟩ :: tree.walkFrom child := by
  rw [walkFrom]
  simp

end SelectorLint.Selector.Tree
