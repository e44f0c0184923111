/-!
# Selector trees

A tree keeps its nodes in one array, in the order in which they were added (`Tree.append`). A node names its parent
and its children by their places in that array, so that siblings are found in the child list of the parent
(`Tree.previous?`, `Tree.next?`, `Tree.following`). The root is node 0 and is there from the start.

A child is always added after its parent. The type carries this fact (`child_gt`), which is why the walk
below a node comes to an end (`Tree.walk`). The walk also tells what each node stands in (`Enclosing`).
-/

namespace SelectorLint.Selector

/-- What a node of a selector tree stands for. -/
inductive Kind where
  | attr | className | combinator | comment | id | nesting | pseudo | root | selector
  | string | tag | universal
  deriving DecidableEq, Repr

namespace Kind

/-- The kind is one simple selector of a compound, such as `.a` or `:hover`. -/
def isChaining : Kind → Bool
  | attr | className | id | pseudo | tag | universal => true
  | combinator | comment | nesting | root | selector | string => false

/-- The name of a kind in messages. -/
def label : Kind → String
  | attr => "attribute"
  | className => "class"
  | combinator => "combinator"
  | comment => "comment"
  | id => "id"
  | nesting => "nesting"
  | pseudo => "pseudo"
  | root => "root"
  | selector => "selector"
  | string => "string"
  | tag => "tag"
  | universal => "universal"

/-- All kinds, by name. -/
def all : List Kind :=
  [attr, className, combinator, comment, id, nesting, pseudo, root, selector, string, tag,
   universal]

/-- The kind with a given name. -/
def ofLabel? (name : String) : Option Kind := all.find? fun kind => kind.label = name

end Kind

/-- A node of a selector tree. -/
structure Node where
  kind : Kind
  /-- The text of the node: `b` for `.b`, `>` for a child combinator. -/
  value : String
  /-- The byte offset of the node in the selector. -/
  offset : Nat
  parent : Option Nat
  children : Array Nat
  /-- The place of the node in the child list of its parent. -/
  position : Nat
  deriving DecidableEq, Repr

/-- A selector tree. The children of a node come after it. -/
structure Tree where
  nodes : Array Node
  child_gt : ∀ (index : Nat) (h : index < nodes.size), ∀ child ∈ nodes[index].children, index < child
  deriving DecidableEq

namespace Tree

/-- The tree that has only a root. -/
def empty : Tree where
  nodes := #[⟨.root, "", 0, none, #[], 0⟩]
  child_gt := by simp

/-- The number of nodes, the root included. -/
def size (tree : Tree) : Nat := tree.nodes.size

/-- The children of a node, in order. -/
def children (tree : Tree) (id : Nat) : Array Nat :=
  match tree.nodes[id]? with
  | some node => node.children
  | none => #[]

/-- Adds a node as the last child of `parent`, which is a node of the tree. The new node is the last
one, so that its number is the size of the tree before. -/
def append (tree : Tree) (parent : Nat) (kind : Kind) (value : String) (offset : Nat) : Tree where
  nodes :=
    let id := tree.size
    let position := (tree.children parent).size
    (tree.nodes.modify parent fun node => { node with children := node.children.push id }).push
      ⟨kind, value, offset, some parent, #[], position⟩
  child_gt := by
    intro index h child hchild
    simp only [Array.size_push, Array.size_modify] at h
    rw [Array.getElem_push] at hchild
    split at hchild
    next hlt =>
      rw [Array.size_modify] at hlt
      rw [Array.getElem_modify] at hchild
      split at hchild
      · rcases Array.mem_push.1 hchild with hold | hnew
        · exact tree.child_gt index hlt child hold
        · rw [hnew]
          exact hlt
      · exact tree.child_gt index hlt child hchild
    next => simp at hchild

/-- The parent of a node; the root has none. -/
def parent? (tree : Tree) (id : Nat) : Option Nat := tree.nodes[id]?.bind Node.parent

/-- The kind of a node. -/
def kind? (tree : Tree) (id : Nat) : Option Kind := tree.nodes[id]?.map Node.kind

/-- The sibling just before a node. -/
def previous? (tree : Tree) (id : Nat) : Option Nat := do
  let node ← tree.nodes[id]?
  let parent ← node.parent
  match node.position with
  | 0 => none
  | before + 1 => (tree.children parent)[before]?

/-- The sibling just after a node. -/
def next? (tree : Tree) (id : Nat) : Option Nat := do
  let node ← tree.nodes[id]?
  let parent ← node.parent
  (tree.children parent)[node.position + 1]?

/-- The siblings after a node, in order. -/
def following (tree : Tree) (id : Nat) : Array Nat :=
  match tree.nodes[id]? with
  | some node =>
    match node.parent with
    | some parent => (tree.children parent).extract (node.position + 1)
    | none => #[]
  | none => #[]

/-- The groups of the selector list: the children of the root. -/
def groups (tree : Tree) : Array Nat := tree.children 0

theorem lt_of_mem_children {tree : Tree} {id child : Nat} (h : child ∈ tree.children id) :
    id < tree.size ∧ id < child := by
  unfold children at h
  split at h
  next node hnode =>
    obtain ⟨hlt, rfl⟩ := Array.getElem?_eq_some_iff.1 hnode
    exact ⟨hlt, tree.child_gt id hlt child h⟩
  next => simp at h

end Tree

/-! ## Walking a tree -/

/-- What a node stands directly in. -/
inductive Enclosing where
  /-- The root, or anything that is no selector group. -/
  | structural
  /-- A selector group that is no argument. -/
  | group
  /-- A selector group that is an argument of a pseudo-class. -/
  | argument
  deriving DecidableEq, Repr

/-- A step of a walk. -/
structure Visit where
  id : Nat
  enclosing : Enclosing
  deriving DecidableEq, Repr

namespace Tree

/-- What the children of a node stand in. -/
def enclosingOfChildren (tree : Tree) (id : Nat) : Enclosing :=
  if tree.kind? id = some .selector then
    if (tree.parent? id).bind tree.kind? = some .pseudo then .argument else .group
  else .structural

/-- The descendants of a node in document order: each before its own descendants, and these before the
next sibling. -/
def walkFrom (tree : Tree) (id : Nat) : List Visit :=
  (tree.children id).toList.attach.flatMap fun ⟨child, _⟩ =>
    ⟨child, tree.enclosingOfChildren id⟩ :: tree.walkFrom child
termination_by tree.size - id
decreasing_by
  rename_i hchild
  have := lt_of_mem_children (Array.mem_toList_iff.1 hchild)
  omega

/-- Every node but the root, in document order. -/
def walk (tree : Tree) : List Visit := tree.walkFrom 0

end Tree

end SelectorLint.Selector
