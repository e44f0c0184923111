import Mathlib.Data.List.Nodup
import Mathlib.Data.List.Perm.Basic
import SelectorLint.Proofs.Tree.Order

/-!
# The walk is a preorder

What the walk below a node visits, in which order and with which tags, in every tree that was built by
adding nodes (`walkFrom_isPreorder`). The numbers of the nodes say nothing about the order, since children
can be added to an old node at any time. The order is that of the child lists (`Before`).

The walk can also be taken one visit at a time, with a stack of the visits that are due (`Drains`). The
stack gets empty, and by then the same visits have been made (`drains_pushChildren`).
-/

namespace SelectorLint.Selector.Tree

/-! ## Document order -/

namespace Linked

variable {tree : Tree}

/-- What is in or below two siblings, the second after the first, is not the same. -/
theorem not_within_both (h : Linked tree) {left right id : Nat} (hprecedes : tree.Precedes left right)
    (hleft : tree.Within left id) (hright : tree.Within right id) : False :=
  h.before_irrefl id (.inr ⟨left, right, hprecedes, hleft, hright⟩)

/-- A node strictly above a sibling is above all its siblings. -/
theorem within_sibling (h : Linked tree) {above left right : Nat}
    (habove : tree.Within above left) (hne : above ≠ left)
    (hsiblings : ∃ parent, tree.IsParent parent left ∧ tree.IsParent parent right) :
    tree.Within above right := by
  obtain ⟨parent, hleft, hright⟩ := hsiblings
  rcases Relation.ReflTransGen.cases_tail habove with heq | ⟨other, hother, hchild⟩
  · exact absurd heq.symm hne
  · obtain rfl := h.isParent_unique hchild hleft
    exact hother.tail hright

theorem exists_parent_of_precedes {left right : Nat} (h : tree.Precedes left right) :
    ∃ parent, tree.IsParent parent left ∧ tree.IsParent parent right := by
  obtain ⟨parent, place, later, -, hleft, hright⟩ := h
  exact ⟨parent, Array.mem_of_getElem? hleft, Array.mem_of_getElem? hright⟩

/-- Siblings that follow each other in one child list. -/
theorem precedes_trans (h : Linked tree) {first second third : Nat} (hfirst : tree.Precedes first second)
    (hsecond : tree.Precedes second third) : tree.Precedes first third := by
  obtain ⟨parent, place, middle, hlt, hplace, hmiddle⟩ := hfirst
  obtain ⟨other, middle', later, hlt', hmiddle', hlater⟩ := hsecond
  obtain ⟨node, hnode, hparent, hposition⟩ := h.exists_of_getElem?_children hmiddle
  obtain ⟨node', hnode', hparent', hposition'⟩ := h.exists_of_getElem?_children hmiddle'
  obtain rfl : node = node' := Option.some.inj (hnode.symm.trans hnode')
  obtain rfl : parent = other := Option.some.inj (hparent.symm.trans hparent')
  exact ⟨parent, place, later, by omega, hplace, hlater⟩

/-- Two pairs of siblings do not put two nodes in opposite orders. -/
theorem not_crossing (h : Linked tree) {left right left' right' first second : Nat}
    (hprecedes : tree.Precedes left right) (hprecedes' : tree.Precedes left' right')
    (hleft : tree.Within left first) (hright : tree.Within right second)
    (hleft' : tree.Within left' second) (hright' : tree.Within right' first) : False := by
  have hparent := exists_parent_of_precedes hprecedes
  obtain ⟨parent', hparentLeft, hparentRight⟩ := exists_parent_of_precedes hprecedes'
  by_cases heq : left = right'
  · -- all four stand in one child list
    subst heq
    exact h.not_within_both (h.precedes_trans hprecedes' hprecedes) hleft' hright
  · rcases h.within_or_within hleft hright' with hwithin | hwithin
    · have habove := h.within_sibling hwithin heq ⟨parent', hparentRight, hparentLeft⟩
      exact h.not_within_both hprecedes (habove.trans hleft') hright
    · have habove := h.within_sibling hwithin (Ne.symm heq) hparent
      exact h.not_within_both hprecedes' hleft' (habove.trans hright)

theorem before_asymm (h : Linked tree) {first second : Nat} (hbefore : tree.Before first second) :
    ¬tree.Before second first := by
  intro hback
  rcases hbefore with hbelow | ⟨left, right, hprecedes, hleft, hright⟩
  · rcases hback with habove | ⟨left', right', hprecedes', hleft', hright'⟩
    · have hlt := lt_of_below hbelow
      have hgt := lt_of_below habove
      omega
    · exact h.not_within_both hprecedes' hleft' (hright'.trans hbelow.to_reflTransGen)
  · rcases hback with habove | ⟨left', right', hprecedes', hleft', hright'⟩
    · exact h.not_within_both hprecedes hleft (hright.trans habove.to_reflTransGen)
    · exact h.not_crossing hprecedes hprecedes' hleft hright hleft' hright'

end Linked

/-! ## With a stack -/

/-- Puts the children of a node on a stack of visits, the last one first, so that the first is on top. -/
def pushChildren (tree : Tree) (stack : List Visit) (id : Nat) : List Visit :=
  (tree.children id).toList.reverse.foldl
    (fun pushed child => ⟨child, tree.enclosingOfChildren id⟩ :: pushed) stack

/-- With this stack of visits that are due, these visits are made until the stack is empty. Each is taken
from the top, and the children of its node are put there instead. -/
inductive Drains (tree : Tree) : List Visit → List Visit → Prop where
  | done : Drains tree [] []
  | next {visit stack visits} (others : Drains tree (tree.pushChildren stack visit.id) visits) :
      Drains tree (visit :: stack) (visit :: visits)

theorem pushChildren_eq (tree : Tree) (stack : List Visit) (id : Nat) :
    tree.pushChildren stack id =
      (tree.children id).toList.map (fun child => ⟨child, tree.enclosingOfChildren id⟩) ++ stack := by
  rw [pushChildren, List.foldl_reverse, List.foldr_cons_eq_append]

theorem Drains.eq {tree : Tree} {stack visits others : List Visit} (h : tree.Drains stack visits)
    (hothers : tree.Drains stack others) : visits = others := by
  induction h generalizing others with
  | done =>
    cases hothers
    rfl
  | next _ ih =>
    cases hothers with
    | next hrest => rw [ih hrest]

/-- The children on top of a stack are worked off first, each with all that is below it. -/
theorem drains_pushChildren (tree : Tree) (id : Nat) {stack visits : List Visit}
    (h : tree.Drains stack visits) :
    tree.Drains (tree.pushChildren stack id) (tree.walkFrom id ++ visits) := by
  induction id using tree.children_induction generalizing stack visits with
  | step id ih =>
    rw [pushChildren_eq, walkFrom_eq]
    have hsome : ∀ children : List Nat, (∀ child ∈ children, child ∈ tree.children id) →
        tree.Drains (children.map (fun child => ⟨child, tree.enclosingOfChildren id⟩) ++ stack)
          ((children.flatMap fun child =>
            ⟨child, tree.enclosingOfChildren id⟩ :: tree.walkFrom child) ++ visits) := by
      intro children hchildren
      induction children with
      | nil => exact h
      | cons child children ihchildren =>
        obtain ⟨hchild, hrest⟩ := List.forall_mem_cons.1 hchildren
        rw [List.map_cons, List.cons_append, List.flatMap_cons, List.cons_append, List.cons_append,
          List.append_assoc]
        exact .next (ih child hchild (ihchildren hrest))
    exact hsome _ fun child hchild => Array.mem_toList_iff.1 hchild

/-! ## Preorder -/

/-- The node stands directly in what the tag says. -/
def StandsIn (tree : Tree) (id : Nat) : Enclosing → Prop
  | .argument => ∃ group pseudo, tree.IsParent group id ∧ tree.kind? group = some .selector ∧
      tree.IsParent pseudo group ∧ tree.kind? pseudo = some .pseudo
  | .group => ∃ group, tree.IsParent group id ∧ tree.kind? group = some .selector ∧
      ∀ above, tree.IsParent above group → tree.kind? above ≠ some .pseudo
  | .structural => ∃ parent, tree.IsParent parent id ∧ tree.kind? parent ≠ some .selector

/-- The visits are those of all nodes below `id`, in preorder. -/
structure IsPreorder (tree : Tree) (id : Nat) (visits : List Visit) : Prop where
  mem_iff : ∀ other, other ∈ visits.map Visit.id ↔ tree.Below id other
  nodup : (visits.map Visit.id).Nodup
  /-- A node comes before all below it, and what is in or below a node before what is in or below a later
  node of the same child list. -/
  lt_iff : ∀ (i j : Nat) (hi : i < visits.length) (hj : j < visits.length),
    i < j ↔ tree.Before visits[i].id visits[j].id
  enclosing : ∀ visit ∈ visits, tree.StandsIn visit.id visit.enclosing

theorem Linked.standsIn (h : Linked tree) {parent id : Nat} (hparent : tree.IsParent parent id) :
    tree.StandsIn id (tree.enclosingOfChildren parent) := by
  unfold enclosingOfChildren
  by_cases hgroup : tree.kind? parent = some .selector
  · rw [if_pos hgroup]
    by_cases hpseudo : (tree.parent? parent).bind tree.kind? = some .pseudo
    · rw [if_pos hpseudo]
      obtain ⟨pseudo, hname, hkind⟩ := Option.bind_eq_some_iff.1 hpseudo
      exact ⟨parent, pseudo, hparent, hgroup, h.parent?_eq_some_iff.1 hname, hkind⟩
    · rw [if_neg hpseudo]
      refine ⟨parent, hparent, hgroup, fun above habove hkind => hpseudo ?_⟩
      rw [h.parent?_eq_some_iff.2 habove]
      exact hkind
  · rw [if_neg hgroup]
    exact ⟨parent, hparent, hgroup⟩

theorem Linked.isPreorder_walkFrom (h : Linked tree) (id : Nat) :
    tree.IsPreorder id (tree.walkFrom id) := by
  have hordered := tree.pairwise_walkFrom id
  refine ⟨?_, ?_, ?_, ?_⟩
  · intro other
    constructor
    · intro hmem
      obtain ⟨visit, hvisit, rfl⟩ := List.mem_map.1 hmem
      exact below_of_mem_walkFrom hvisit
    · intro hbelow
      obtain ⟨parent, hwithin, hparent⟩ := Relation.TransGen.tail'_iff.1 hbelow
      refine List.mem_map.2 ⟨⟨other, tree.enclosingOfChildren parent⟩, ?_, rfl⟩
      exact mem_walkFrom_iff.2 ⟨parent, hwithin, hparent, rfl⟩
  · rw [List.Nodup, List.pairwise_map]
    apply hordered.imp
    intro first second hbefore heq
    rw [heq] at hbefore
    exact h.before_irrefl _ hbefore
  · intro i j hi hj
    have hpairs := List.pairwise_iff_getElem.1 hordered
    constructor
    · exact hpairs i j hi hj
    · intro hbefore
      by_contra hnot
      by_cases heq : i = j
      · subst heq
        exact h.before_irrefl _ hbefore
      · exact h.before_asymm hbefore (hpairs j i hj hi (by omega))
  · intro visit hvisit
    obtain ⟨parent, -, hparent, henclosing⟩ := mem_walkFrom_iff.1 hvisit
    rw [henclosing]
    exact h.standsIn hparent

theorem Linked.length_walk (h : Linked tree) : tree.walk.length = tree.size - 1 := by
  have hnodup : (tree.walk.map Visit.id).Nodup := (h.isPreorder_walkFrom 0).nodup
  have hperm : (tree.walk.map Visit.id).Perm (List.range' 1 (tree.size - 1)) := by
    refine (List.perm_ext_iff_of_nodup hnodup List.nodup_range').2 fun id => ?_
    rw [h.mem_map_walk_iff, List.mem_range'_1]
    omega
  have hlength := hperm.length_eq
  rwa [List.length_map, List.length_range'] at hlength

/-- The walk below a node makes one visit to each node below it and no others, in preorder, and says of each
what it stands in. With a stack it comes to an end, and makes just these visits. The walk of the whole tree
visits all nodes but the root. -/
theorem walkFrom_isPreorder {tree : Tree} (h : tree.Built) :
    (∀ id, tree.IsPreorder id (tree.walkFrom id) ∧
      ∀ visits, tree.Drains (tree.pushChildren [] id) visits ↔ visits = tree.walkFrom id) ∧
    tree.walk.length = tree.size - 1 := by
  refine ⟨fun id => ⟨h.linked.isPreorder_walkFrom id, fun visits => ?_⟩, h.linked.length_walk⟩
  have hdrains := tree.drains_pushChildren id .done
  rw [List.append_nil] at hdrains
  constructor
  · intro hvisits
    exact hvisits.eq hdrains
  · intro heq
    rw [heq]
    exact hdrains

/-- A tree in which the group with the number 1 gets its children after the group with the number 2. -/
def lateChildren : Tree :=
  ((((Tree.empty.append 0 .selector "" 0).append 0 .selector "" 9).append 1 .pseudo ":is" 0).append 3
    .selector "" 4).append 4 .tag "a" 4

theorem walkFrom_isPreorder_lateChildren :
    lateChildren.Built ∧ lateChildren.IsPreorder 0 lateChildren.walk ∧
      lateChildren.walk =
        [⟨1, .structural⟩, ⟨3, .group⟩, ⟨4, .structural⟩, ⟨5, .argument⟩, ⟨2, .structural⟩] := by
  have hbuilt : lateChildren.Built :=
    .append (.append (.append (.append (.append .empty (by decide) _ _ _) (by decide) _ _ _)
      (by decide) _ _ _) (by decide) _ _ _) (by decide) _ _ _
  refine ⟨hbuilt, ((walkFrom_isPreorder hbuilt).1 0).1, ?_⟩
  decide +kernel

end SelectorLint.Selector.Tree
