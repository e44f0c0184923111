import SelectorLint.Proofs.Tree.Growth

/-!
# Links in a tree

A tree that was built by adding nodes (`Built`) has consistent links (`Linked`): a node stands in the
child list of its parent, at the position that it names, and in no other child list. So the siblings
that a node finds by its position are those beside it in the one child list that it is in.
-/

namespace SelectorLint.Selector.Tree

/-- The tree comes from the empty tree by adding nodes, each to a node that is there. -/
inductive Built : Tree → Prop where
  | empty : Built .empty
  | append {tree parent} (built : Built tree) (hparent : parent < tree.size) (kind : Kind)
      (value : String) (offset : Nat) : Built (tree.append parent kind value offset)

/-- The links of the tree fit together. -/
structure Linked (tree : Tree) : Prop where
  root : ∀ (id : Nat) (node : Node), tree.nodes[id]? = some node → (node.parent = none ↔ id = 0)
  /-- A node stands in the child list of its parent, where it says. -/
  up : ∀ (id : Nat) (node : Node) (parent : Nat), tree.nodes[id]? = some node →
    node.parent = some parent → (tree.children parent)[node.position]? = some id
  /-- A node in a child list names the owner of the list as its parent. -/
  down : ∀ id child : Nat, child ∈ tree.children id →
    ∃ node, tree.nodes[child]? = some node ∧ node.parent = some id
  sorted : ∀ id : Nat, (tree.children id).toList.Pairwise (· < ·)

/-! ## Adding a node -/

section Append

variable {tree : Tree} {parent : Nat} {kind : Kind} {value : String} {offset : Nat}

/-- Child lists grow at their end. -/
theorem getElem?_children_append {id place child : Nat} (h : (tree.children id)[place]? = some child) :
    ((tree.append parent kind value offset).children id)[place]? = some child := by
  have hplace : place < (tree.children id).size := (Array.getElem?_eq_some_iff.1 h).1
  have hid : id < tree.size := (lt_of_mem_children (Array.mem_of_getElem? h)).1
  by_cases hne : id = parent
  · subst hne
    rw [children_append_parent hid, Array.getElem?_push_lt hplace]
    exact (Array.getElem?_eq_getElem hplace).symm.trans h
  · rw [children_append_of_ne hne]
    exact h

/-- Nodes that were there before keep all but their child lists. -/
theorem getElem?_append_of_lt {id : Nat} (hparent : parent < tree.size) (hid : id < tree.size) :
    (tree.append parent kind value offset).nodes[id]? = tree.nodes[id]?.map fun node =>
      { node with children := (tree.append parent kind value offset).children id } := by
  have hnode : tree.nodes[id]? = some tree.nodes[id] := Array.getElem?_eq_getElem hid
  by_cases hne : id = parent
  · subst hne
    rw [getElem?_append_parent hparent, children_append_parent hparent, children, hnode]
    rfl
  · rw [getElem?_append_of_ne (Nat.ne_of_lt hid) hne, children_append_of_ne hne, children, hnode]
    rfl

theorem lt_of_getElem? {id : Nat} {node : Node} (h : tree.nodes[id]? = some node) : id < tree.size :=
  (Array.getElem?_eq_some_iff.1 h).1

end Append

namespace Linked

variable {tree : Tree} {parent : Nat}

theorem lt_of_mem {id child : Nat} (h : Linked tree) (hchild : child ∈ tree.children id) :
    child < tree.size := by
  obtain ⟨node, hnode, -⟩ := h.down id child hchild
  exact lt_of_getElem? hnode

theorem empty : Linked .empty where
  root id node hnode := by
    obtain rfl : id = 0 := Nat.lt_one_iff.1 (lt_of_getElem? hnode)
    cases hnode
    exact iff_of_true rfl rfl
  up id node parent hnode hparent := by
    obtain rfl : id = 0 := Nat.lt_one_iff.1 (lt_of_getElem? hnode)
    cases hnode
    cases hparent
  down id child hchild := by simp at hchild
  sorted id := by simp

/-- After adding a node there are the nodes from before, with the same links to their parents, and the
new one. -/
theorem cases_of_append (hparent : parent < tree.size) {kind : Kind} {value : String} {offset id : Nat}
    {node : Node} (hnode : (tree.append parent kind value offset).nodes[id]? = some node) :
    (∃ old, tree.nodes[id]? = some old ∧ node.parent = old.parent ∧ node.position = old.position) ∨
      id = tree.size ∧ node.parent = some parent ∧ node.position = (tree.children parent).size := by
  by_cases hself : id = tree.size
  · subst hself
    rw [getElem?_append_self] at hnode
    cases hnode
    exact .inr ⟨rfl, rfl, rfl⟩
  · have hle := lt_of_getElem? hnode
    rw [size_append] at hle
    rw [getElem?_append_of_lt hparent (by omega)] at hnode
    obtain ⟨old, hold, rfl⟩ := Option.map_eq_some_iff.1 hnode
    exact .inl ⟨old, hold, rfl, rfl⟩

theorem append (h : Linked tree) (hparent : parent < tree.size) (kind : Kind) (value : String)
    (offset : Nat) : Linked (tree.append parent kind value offset) := by
  have hkeep : ∀ id child : Nat, child ∈ tree.children id →
      ∃ node, (tree.append parent kind value offset).nodes[child]? = some node ∧
        node.parent = some id := by
    intro id child hchild
    obtain ⟨old, hold, hname⟩ := h.down id child hchild
    rw [getElem?_append_of_lt hparent (lt_of_getElem? hold), hold]
    exact ⟨_, rfl, hname⟩
  refine ⟨?_, ?_, ?_, ?_⟩
  · intro id node hnode
    rcases cases_of_append hparent hnode with ⟨old, hold, hsame, -⟩ | ⟨rfl, hname, -⟩
    · rw [hsame]
      exact h.root id old hold
    · rw [hname]
      simp only [reduceCtorEq, false_iff]
      omega
  · intro id node above hnode habove
    rcases cases_of_append hparent hnode with ⟨old, hold, hsame, hposition⟩ | ⟨rfl, hname, hposition⟩
    · rw [hposition]
      exact getElem?_children_append (h.up id old above hold (hsame ▸ habove))
    · obtain rfl : parent = above := Option.some.inj (hname.symm.trans habove)
      rw [hposition, children_append_parent hparent]
      exact Array.getElem?_push_size
  · intro id child hchild
    by_cases hne : id = parent
    · subst hne
      rw [children_append_parent hparent, Array.mem_push] at hchild
      rcases hchild with hchild | rfl
      · exact hkeep id child hchild
      · exact ⟨_, getElem?_append_self, rfl⟩
    · rw [children_append_of_ne hne] at hchild
      exact hkeep id child hchild
  · intro id
    by_cases hne : id = parent
    · subst hne
      rw [children_append_parent hparent, Array.toList_push, List.pairwise_append]
      refine ⟨h.sorted id, by simp, ?_⟩
      intro first hfirst second hsecond
      obtain rfl := List.mem_singleton.1 hsecond
      exact h.lt_of_mem (Array.mem_toList_iff.1 hfirst)
    · rw [children_append_of_ne hne]
      exact h.sorted id

end Linked

theorem Built.linked {tree : Tree} (h : Built tree) : Linked tree := by
  induction h with
  | empty => exact .empty
  | append _ hparent kind value offset ih => exact ih.append hparent kind value offset

/-! ## Siblings -/

/-- The two nodes stand in one child list, the second right after the first. -/
def Adjacent (tree : Tree) (first second : Nat) : Prop :=
  ∃ parent place, (tree.children parent)[place]? = some first ∧
    (tree.children parent)[place + 1]? = some second

/-- The two nodes stand in one child list, the second somewhere after the first. -/
def Precedes (tree : Tree) (first second : Nat) : Prop :=
  ∃ parent place later : Nat, place < later ∧ (tree.children parent)[place]? = some first ∧
    (tree.children parent)[later]? = some second

namespace Linked

variable {tree : Tree} {parent place child : Nat}

/-- A node is in one place of one child list. -/
theorem exists_of_getElem?_children (h : Linked tree)
    (hplace : (tree.children parent)[place]? = some child) :
    ∃ node, tree.nodes[child]? = some node ∧ node.parent = some parent ∧ node.position = place := by
  obtain ⟨node, hnode, hparent⟩ := h.down parent child (Array.mem_of_getElem? hplace)
  have hposition := h.up child node parent hnode hparent
  have hnodup : (tree.children parent).toList.Nodup := (h.sorted parent).imp Nat.ne_of_lt
  have hsize : node.position < (tree.children parent).toList.length :=
    (Array.getElem?_eq_some_iff.1 hposition).1
  refine ⟨node, hnode, hparent, (List.getElem?_inj hsize hnodup).1 ?_⟩
  rw [Array.getElem?_toList, Array.getElem?_toList, hposition, hplace]

theorem parent?_eq_some_iff (h : Linked tree) :
    tree.parent? child = some parent ↔ child ∈ tree.children parent := by
  constructor
  · intro hparent
    obtain ⟨node, hnode, hname⟩ := Option.bind_eq_some_iff.1 hparent
    exact Array.mem_of_getElem? (h.up child node parent hnode hname)
  · intro hmem
    obtain ⟨node, hnode, hname⟩ := h.down parent child hmem
    rw [parent?, hnode]
    exact hname

/-- The sibling before a node, by its position, is the one before it in the child list. -/
theorem previous?_eq_some_iff (h : Linked tree) {id previous : Nat} :
    tree.previous? id = some previous ↔ tree.Adjacent previous id := by
  constructor
  · intro hprevious
    obtain ⟨node, hnode, hrest⟩ := Option.bind_eq_some_iff.1 hprevious
    obtain ⟨parent, hparent, hplace⟩ := Option.bind_eq_some_iff.1 hrest
    split at hplace
    · cases hplace
    next place hposition =>
      have hself := h.up id node parent hnode hparent
      rw [hposition] at hself
      exact ⟨parent, place, hplace, hself⟩
  · intro hadjacent
    rcases hadjacent with ⟨parent, place, hprevious, hself⟩
    obtain ⟨node, hnode, hparent, hposition⟩ := h.exists_of_getElem?_children hself
    simp only [previous?, hnode, hparent, hposition, Option.bind_eq_bind, Option.bind_some]
    exact hprevious

/-- The sibling after a node, by its position, is the one after it in the child list. -/
theorem next?_eq_some_iff (h : Linked tree) {id next : Nat} :
    tree.next? id = some next ↔ tree.Adjacent id next := by
  constructor
  · intro hnext
    obtain ⟨node, hnode, hrest⟩ := Option.bind_eq_some_iff.1 hnext
    obtain ⟨parent, hparent, hplace⟩ := Option.bind_eq_some_iff.1 hrest
    exact ⟨parent, node.position, h.up id node parent hnode hparent, hplace⟩
  · intro hadjacent
    rcases hadjacent with ⟨parent, place, hself, hnext⟩
    obtain ⟨node, hnode, hparent, hposition⟩ := h.exists_of_getElem?_children hself
    simp only [next?, hnode, hparent, hposition, Option.bind_eq_bind, Option.bind_some]
    exact hnext

theorem mem_following_iff (h : Linked tree) {id sibling : Nat} :
    sibling ∈ tree.following id ↔ tree.Precedes id sibling := by
  constructor
  · intro hmem
    unfold following at hmem
    split at hmem
    next node hnode =>
      split at hmem
      next parent hparent =>
        obtain ⟨place, hplace⟩ := Array.mem_iff_getElem?.1 hmem
        rw [Array.getElem?_extract] at hplace
        split at hplace
        · exact ⟨parent, node.position, node.position + 1 + place, by omega,
            h.up id node parent hnode hparent, hplace⟩
        · cases hplace
      · simp at hmem
    · simp at hmem
  · intro hprecedes
    rcases hprecedes with ⟨parent, place, later, hlt, hself, hsibling⟩
    obtain ⟨node, hnode, hparent, hposition⟩ := h.exists_of_getElem?_children hself
    simp only [following, hnode, hparent, hposition]
    have hsize : later < (tree.children parent).size := (Array.getElem?_eq_some_iff.1 hsibling).1
    refine Array.mem_iff_getElem?.2 ⟨later - (place + 1), ?_⟩
    rw [Array.getElem?_extract, if_pos (by omega), show place + 1 + (later - (place + 1)) = later by omega]
    exact hsibling

end Linked

end SelectorLint.Selector.Tree
