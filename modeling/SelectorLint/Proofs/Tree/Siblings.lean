import SelectorLint.Proofs.Tree.Links

/-!
# Siblings

A tree says three times who is below whom: by the parents that the nodes name, by the child lists, and by the
position that each node has in one of them. In a tree that was built by adding nodes, to whatever nodes and in
whatever order, the three agree (`Agrees`).

So the way to the next sibling leads back to where it came from, the siblings after a node are those that one
gets to by going on to the next one (`NextRun`), and all that is read on the way is there. The last is said by
versions of the three ways that fail on any access out of range (`readPrevious`, `readNext`, `readFollowing`):
they do not fail (`siblings_agree`).
-/

namespace SelectorLint.Selector.Tree

/-! ## Three views of one tree -/

/-- Parents, child lists and positions say the same. -/
structure Agrees (tree : Tree) : Prop where
  size_pos : 0 < tree.size
  /-- The root is the only node without a parent. -/
  root : ∀ id < tree.size, tree.parent? id = none ↔ id = 0
  /-- Any other node is in one place of one child list, that of an earlier node, which is its parent. -/
  place : ∀ (id : Nat) (node : Node), tree.nodes[id]? = some node → id ≠ 0 →
    ∃ parent < id, node.parent = some parent ∧
      ∀ owner place, (tree.children owner)[place]? = some id ↔ owner = parent ∧ place = node.position
  /-- In the child lists there are only nodes of the tree. -/
  child_lt : ∀ id, ∀ child ∈ tree.children id, child < tree.size
  sorted : ∀ id, (tree.children id).toList.Pairwise (· < ·)

namespace Linked

variable {tree : Tree} {id parent : Nat} {node : Node}

/-- The places where a node stands in the child lists. -/
theorem getElem?_children_eq_some_iff (h : Linked tree) (hnode : tree.nodes[id]? = some node)
    (hparent : node.parent = some parent) {owner place : Nat} :
    (tree.children owner)[place]? = some id ↔ owner = parent ∧ place = node.position := by
  constructor
  · intro hplace
    obtain ⟨other, hother, howner, hposition⟩ := h.exists_of_getElem?_children hplace
    obtain rfl : node = other := Option.some.inj (hnode.symm.trans hother)
    exact ⟨Option.some.inj (howner.symm.trans hparent), hposition.symm⟩
  · intro hplace
    rw [hplace.1, hplace.2]
    exact h.up id node parent hnode hparent

theorem agrees (h : Linked tree) (hsize : 0 < tree.size) : tree.Agrees := by
  refine ⟨hsize, ?_, ?_, fun id child => h.lt_of_mem, h.sorted⟩
  · intro id hid
    have hnode : tree.nodes[id]? = some tree.nodes[id] := Array.getElem?_eq_getElem hid
    rw [parent?, hnode]
    exact h.root id _ hnode
  · intro id node hnode hne
    cases hparent : node.parent with
    | none => exact absurd ((h.root id node hnode).1 hparent) hne
    | some parent =>
      have hchild := Array.mem_of_getElem? (h.up id node parent hnode hparent)
      exact ⟨parent, (lt_of_mem_children hchild).2, rfl,
        fun _ _ => h.getElem?_children_eq_some_iff hnode hparent⟩

/-- The child list that a node says it is in, as the list of a node of the tree. -/
theorem exists_owner (h : Linked tree) (hnode : tree.nodes[id]? = some node)
    (hparent : node.parent = some parent) :
    ∃ owner, tree.nodes[parent]? = some owner ∧ tree.children parent = owner.children ∧
      node.position < owner.children.size := by
  have hplace := h.up id node parent hnode hparent
  have hlt := (lt_of_mem_children (Array.mem_of_getElem? hplace)).1
  have howner : tree.nodes[parent]? = some tree.nodes[parent] := Array.getElem?_eq_getElem hlt
  have hchildren : tree.children parent = tree.nodes[parent].children := by rw [children, howner]
  refine ⟨tree.nodes[parent], howner, hchildren, ?_⟩
  rw [hchildren] at hplace
  exact (Array.getElem?_eq_some_iff.1 hplace).1

end Linked

theorem Built.size_pos {tree : Tree} (h : tree.Built) : 0 < tree.size := by
  cases h with
  | empty => simp
  | append => simp

/-! ## One sibling after the other -/

/-- Going from a node to the next sibling, and on until there is none, leads through these nodes. -/
inductive NextRun (tree : Tree) : Nat → List Nat → Prop where
  | last {id} (hnext : tree.next? id = none) : NextRun tree id []
  | step {id next siblings} (hnext : tree.next? id = some next)
      (others : NextRun tree next siblings) : NextRun tree id (next :: siblings)

theorem NextRun.eq {tree : Tree} {id : Nat} {siblings others : List Nat} (h : tree.NextRun id siblings)
    (hothers : tree.NextRun id others) : siblings = others := by
  induction h generalizing others with
  | last hnext =>
    cases hothers with
    | last => rfl
    | step hother => cases hnext.symm.trans hother
  | step hnext _ ih =>
    cases hothers with
    | last hother => cases hnext.symm.trans hother
    | step hother hrest =>
      obtain rfl := Option.some.inj (hnext.symm.trans hother)
      rw [ih hrest]

theorem toList_extract_eq_drop {Entry : Type} (entries : Array Entry) (place : Nat) :
    (entries.extract place).toList = entries.toList.drop place := by
  rw [Array.toList_extract, List.drop_eq_extract, Array.length_toList]

/-- The first of the siblings after a node is the next one. -/
theorem head?_following (tree : Tree) (id : Nat) : (tree.following id).toList.head? = tree.next? id := by
  unfold following next?
  cases tree.nodes[id]? with
  | none => rfl
  | some node =>
    cases hparent : node.parent with
    | none => simp [hparent]
    | some parent =>
      simp only [hparent, toList_extract_eq_drop, List.head?_drop, Array.getElem?_toList,
        Option.bind_eq_bind, Option.bind_some]

namespace Linked

variable {tree : Tree} {id next parent place : Nat}

theorem toList_following (h : Linked tree) (hplace : (tree.children parent)[place]? = some id) :
    (tree.following id).toList = (tree.children parent).toList.drop (place + 1) := by
  obtain ⟨node, hnode, hparent, hposition⟩ := h.exists_of_getElem?_children hplace
  simp only [following, hnode, hparent, hposition, toList_extract_eq_drop]

/-- The siblings after a node are the next one and those after that. -/
theorem following_of_next? (h : Linked tree) (hnext : tree.next? id = some next) :
    (tree.following id).toList = next :: (tree.following next).toList := by
  obtain ⟨parent, place, hself, hplace⟩ := h.next?_eq_some_iff.1 hnext
  obtain ⟨hlt, hentry⟩ := Array.getElem?_eq_some_iff.1 hplace
  rw [h.toList_following hself, h.toList_following hplace, List.drop_eq_getElem_cons hlt,
    Array.getElem_toList, hentry]

theorem nextRun_following (h : Linked tree) (id : Nat) : tree.NextRun id (tree.following id).toList := by
  -- by induction on the list, since each step takes one sibling from it
  generalize hlist : (tree.following id).toList = siblings
  have hhead := tree.head?_following id
  rw [hlist] at hhead
  induction siblings generalizing id with
  | nil => exact .last hhead.symm
  | cons next siblings ih =>
    have hrest := h.following_of_next? hhead.symm
    rw [hlist] at hrest
    have hsiblings := (List.cons.inj hrest).2.symm
    exact .step hhead.symm (ih next hsiblings (hsiblings ▸ tree.head?_following next))

end Linked

/-! ## Accesses in range -/

/-- An access to a place where there is nothing. -/
structure OutOfRange where
  place : Nat
  deriving DecidableEq, Repr

/-- What stands at a place, which has to be there. -/
def entryAt {Entry : Type} (entries : Array Entry) (place : Nat) : Except OutOfRange Entry :=
  match entries[place]? with
  | some entry => .ok entry
  | none => .error ⟨place⟩

/-- All that stands from a place on. The place may be the end of the array, but not after it. -/
def entriesFrom {Entry : Type} (entries : Array Entry) (place : Nat) : Except OutOfRange (Array Entry) :=
  if place ≤ entries.size then .ok (entries.extract place) else .error ⟨place⟩

theorem entryAt_bind {Entry Value : Type} {entries : Array Entry} {place : Nat} {entry : Entry}
    (h : entries[place]? = some entry) (use : Entry → Except OutOfRange Value) :
    (entryAt entries place >>= use) = use entry := by
  rw [entryAt, h]
  rfl

/-- The sibling just before a node, with accesses that fail out of range. -/
def readPrevious (tree : Tree) (id : Nat) : Except OutOfRange (Option Nat) := do
  let node ← entryAt tree.nodes id
  match node.parent, node.position with
  | some parent, before + 1 =>
    let owner ← entryAt tree.nodes parent
    let sibling ← entryAt owner.children before
    return some sibling
  | _, _ => return none

/-- The sibling just after a node, with accesses that fail out of range. That there is none is no failure. -/
def readNext (tree : Tree) (id : Nat) : Except OutOfRange (Option Nat) := do
  let node ← entryAt tree.nodes id
  match node.parent with
  | some parent =>
    let owner ← entryAt tree.nodes parent
    return owner.children[node.position + 1]?
  | none => return none

/-- The siblings after a node, with accesses that fail out of range. -/
def readFollowing (tree : Tree) (id : Nat) : Except OutOfRange (Array Nat) := do
  let node ← entryAt tree.nodes id
  match node.parent with
  | some parent =>
    let owner ← entryAt tree.nodes parent
    entriesFrom owner.children (node.position + 1)
  | none => return #[]

namespace Linked

variable {tree : Tree} {id : Nat} {node : Node}

theorem readPrevious_eq (h : Linked tree) (hnode : tree.nodes[id]? = some node) :
    tree.readPrevious id = .ok (tree.previous? id) := by
  rw [readPrevious, entryAt_bind hnode, previous?, hnode]
  rcases node with ⟨kind, value, offset, _ | parent, children, _ | before⟩
  · rfl
  · rfl
  · rfl
  · obtain ⟨owner, howner, hchildren, hlt⟩ := h.exists_owner hnode rfl
    have hbefore : before < owner.children.size := Nat.lt_of_succ_lt hlt
    have hsibling : owner.children[before]? = some owner.children[before] :=
      Array.getElem?_eq_getElem hbefore
    simp only [Option.bind_eq_bind, Option.bind_some, hchildren, hsibling, entryAt_bind howner,
      entryAt_bind hsibling]
    rfl

theorem readNext_eq (h : Linked tree) (hnode : tree.nodes[id]? = some node) :
    tree.readNext id = .ok (tree.next? id) := by
  rw [readNext, entryAt_bind hnode, next?, hnode]
  rcases node with ⟨kind, value, offset, _ | parent, children, position⟩
  · rfl
  · obtain ⟨owner, howner, hchildren, -⟩ := h.exists_owner hnode rfl
    simp only [Option.bind_eq_bind, Option.bind_some, hchildren, entryAt_bind howner]
    rfl

theorem readFollowing_eq (h : Linked tree) (hnode : tree.nodes[id]? = some node) :
    tree.readFollowing id = .ok (tree.following id) := by
  rw [readFollowing, entryAt_bind hnode, following, hnode]
  rcases node with ⟨kind, value, offset, _ | parent, children, position⟩
  · rfl
  · obtain ⟨owner, howner, hchildren, hlt⟩ := h.exists_owner hnode rfl
    simp only [hchildren, entryAt_bind howner]
    exact if_pos hlt

end Linked

/-! ## Siblings in a tree that was built -/

/-- In a tree that was built by adding nodes, parents, child lists and positions agree. The next sibling of a
node is the one that it is the previous sibling of, the siblings after it are those that one gets to by going on
to the next one, and nothing is read out of range to find any of them. -/
theorem siblings_agree {tree : Tree} (h : tree.Built) :
    tree.Agrees ∧
      (∀ first second, tree.next? first = some second ↔ tree.previous? second = some first) ∧
      (∀ id siblings, tree.NextRun id siblings ↔ siblings = (tree.following id).toList) ∧
      ∀ id < tree.size, tree.readPrevious id = .ok (tree.previous? id) ∧
        tree.readNext id = .ok (tree.next? id) ∧ tree.readFollowing id = .ok (tree.following id) := by
  have hlinked := h.linked
  refine ⟨hlinked.agrees h.size_pos, ?_, ?_, ?_⟩
  · intro first second
    rw [hlinked.next?_eq_some_iff, hlinked.previous?_eq_some_iff]
  · intro id siblings
    have hrun := hlinked.nextRun_following id
    constructor
    · intro hsiblings
      exact hsiblings.eq hrun
    · intro heq
      rw [heq]
      exact hrun
  · intro id hid
    have hnode : tree.nodes[id]? = some tree.nodes[id] := Array.getElem?_eq_getElem hid
    exact ⟨hlinked.readPrevious_eq hnode, hlinked.readNext_eq hnode, hlinked.readFollowing_eq hnode⟩

/-- A tree of two groups that get their parts by turns. -/
def alternating : Tree :=
  ((((Tree.empty.append 0 .selector "" 0).append 0 .selector "" 4).append 1 .tag "a" 0).append 2 .tag "b"
    4).append 1 .className "c" 1

theorem siblings_agree_alternating :
    alternating.Built ∧ alternating.next? 3 = some 5 ∧ alternating.previous? 5 = some 3 ∧
      alternating.NextRun 3 [5] ∧ alternating.readFollowing 3 = .ok #[5] := by
  have hbuilt : alternating.Built :=
    .append (.append (.append (.append (.append .empty (by decide) _ _ _) (by decide) _ _ _)
      (by decide) _ _ _) (by decide) _ _ _) (by decide) _ _ _
  have hnext : alternating.next? 3 = some 5 := by decide
  have hfollowing : alternating.following 3 = #[5] := by decide
  obtain ⟨-, hback, hruns, hreads⟩ := siblings_agree hbuilt
  refine ⟨hbuilt, hnext, (hback 3 5).1 hnext, (hruns 3 [5]).2 ?_, ?_⟩
  · rw [hfollowing]
  · rw [← hfollowing]
    exact (hreads 3 (by decide)).2.2

end SelectorLint.Selector.Tree
