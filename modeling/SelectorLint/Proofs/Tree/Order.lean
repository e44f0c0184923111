import Mathlib.Logic.Relation
import SelectorLint.Proofs.Tree.Links

/-!
# Document order

One node comes before another in document order if it is above it, or if the two are in or below two
siblings in that order (`Before`). In a tree with consistent links this is irreflexive, the walk meets
every node but the root, and it meets them in this order (`pairwise_walkFrom`). So it meets each once.
-/

namespace SelectorLint.Selector.Tree

/-- The second node is a child of the first. -/
def IsParent (tree : Tree) (parent child : Nat) : Prop := child ∈ tree.children parent

/-- The second node is below the first. -/
def Below (tree : Tree) : Nat → Nat → Prop := Relation.TransGen tree.IsParent

/-- The second node is the first, or below it. -/
def Within (tree : Tree) : Nat → Nat → Prop := Relation.ReflTransGen tree.IsParent

/-- The first node comes before the second in document order. -/
def Before (tree : Tree) (first second : Nat) : Prop :=
  tree.Below first second ∨
    ∃ left right, tree.Precedes left right ∧ tree.Within left first ∧ tree.Within right second

theorem lt_of_below {tree : Tree} {first second : Nat} (h : tree.Below first second) :
    first < second := by
  induction h with
  | single hchild => exact (lt_of_mem_children hchild).2
  | tail _ hchild ih => exact Nat.lt_trans ih (lt_of_mem_children hchild).2

theorem le_of_within {tree : Tree} {first second : Nat} (h : tree.Within first second) :
    first ≤ second := by
  rcases Relation.reflTransGen_iff_eq_or_transGen.1 h with rfl | hbelow
  · exact Nat.le_refl _
  · exact Nat.le_of_lt (lt_of_below hbelow)

namespace Linked

variable {tree : Tree}

theorem lt_of_precedes (h : Linked tree) {left right : Nat} (hprecedes : tree.Precedes left right) :
    left < right := by
  obtain ⟨parent, place, later, hlt, hleft, hright⟩ := hprecedes
  obtain ⟨hplace, rfl⟩ := Array.getElem?_eq_some_iff.1 hleft
  obtain ⟨hlater, rfl⟩ := Array.getElem?_eq_some_iff.1 hright
  have hsorted := List.pairwise_iff_getElem.1 (h.sorted parent) place later hplace hlater hlt
  simpa using hsorted

theorem isParent_unique (h : Linked tree) {parent other child : Nat}
    (hparent : tree.IsParent parent child) (hother : tree.IsParent other child) : parent = other := by
  have hname := h.parent?_eq_some_iff.2 hparent
  rw [h.parent?_eq_some_iff.2 hother] at hname
  exact (Option.some.inj hname).symm

/-- Of two nodes above a third, one is above the other. -/
theorem within_or_within (h : Linked tree) {first second last : Nat} (hfirst : tree.Within first last)
    (hsecond : tree.Within second last) : tree.Within first second ∨ tree.Within second first := by
  induction hfirst with
  | refl => exact .inr hsecond
  | @tail middle last hmiddle hchild ih =>
    rcases Relation.ReflTransGen.cases_tail hsecond with rfl | ⟨other, hother, hsame⟩
    · exact .inl (hmiddle.tail hchild)
    · obtain rfl := h.isParent_unique hchild hsame
      exact ih hother

theorem before_irrefl (h : Linked tree) (id : Nat) : ¬tree.Before id id := by
  intro hbefore
  rcases hbefore with hbelow | ⟨left, right, hprecedes, hleft, hright⟩
  · exact Nat.lt_irrefl id (lt_of_below hbelow)
  · have hlt := h.lt_of_precedes hprecedes
    obtain ⟨parent, place, later, -, hplace, hlater⟩ := hprecedes
    rcases h.within_or_within hleft hright with hwithin | hwithin
    · -- then the left one is in or above the parent of both, but it is a child of that
      rcases Relation.ReflTransGen.cases_tail hwithin with heq | ⟨other, hother, hchild⟩
      · omega
      · obtain rfl := h.isParent_unique hchild (Array.mem_of_getElem? hlater)
        have hle := le_of_within hother
        have hgt := (lt_of_mem_children (Array.mem_of_getElem? hplace)).2
        omega
    · have hle := le_of_within hwithin
      omega

theorem below_root (h : Linked tree) {id : Nat} (hpos : 0 < id) (hsize : id < tree.size) :
    tree.Below 0 id := by
  induction id using Nat.strongRecOn with
  | ind id ih =>
    have hnode : tree.nodes[id]? = some tree.nodes[id] := Array.getElem?_eq_getElem hsize
    cases hparent : tree.nodes[id].parent with
    | none =>
      have hzero := (h.root id _ hnode).1 hparent
      omega
    | some parent =>
      have hchild : tree.IsParent parent id := Array.mem_of_getElem? (h.up id _ parent hnode hparent)
      have hlt := lt_of_mem_children hchild
      by_cases hroot : parent = 0
      · subst hroot
        exact .single hchild
      · exact (ih parent hlt.2 (by omega) hlt.1).tail hchild

end Linked

/-! ## The walk -/

variable {tree : Tree}

/-- Induction from the children to the parent. -/
theorem children_induction (tree : Tree) {motive : Nat → Prop}
    (step : ∀ id, (∀ child ∈ tree.children id, motive child) → motive id) (id : Nat) : motive id := by
  induction hmeasure : tree.size - id using Nat.strongRecOn generalizing id with
  | ind measure ih =>
    refine step id fun child hchild => ih (tree.size - child) ?_ child rfl
    have hlt := lt_of_mem_children hchild
    omega

/-- The walk meets what is below a node, and knows what it stands in. -/
theorem mem_walkFrom_iff {id : Nat} {visit : Visit} :
    visit ∈ tree.walkFrom id ↔ ∃ parent, tree.Within id parent ∧ tree.IsParent parent visit.id ∧
      visit.enclosing = tree.enclosingOfChildren parent := by
  induction id using tree.children_induction with
  | step id ih =>
    rw [walkFrom_eq, List.mem_flatMap]
    constructor
    · intro hsome
      rcases hsome with ⟨child, hchild, hvisit⟩
      rw [Array.mem_toList_iff] at hchild
      rcases List.mem_cons.1 hvisit with rfl | hvisit
      · exact ⟨id, .refl, hchild, rfl⟩
      · obtain ⟨parent, hwithin, hrest⟩ := (ih child hchild).1 hvisit
        exact ⟨parent, hwithin.head hchild, hrest⟩
    · intro hvisited
      rcases hvisited with ⟨parent, hwithin, hparent, henclosing⟩
      rcases Relation.ReflTransGen.cases_head hwithin with rfl | ⟨child, hchild, hbelow⟩
      · refine ⟨visit.id, Array.mem_toList_iff.2 hparent, List.mem_cons.2 (.inl ?_)⟩
        rw [← henclosing]
      · refine ⟨child, Array.mem_toList_iff.2 hchild, List.mem_cons_of_mem _ ?_⟩
        exact (ih child hchild).2 ⟨parent, hbelow, hparent, henclosing⟩

theorem below_of_mem_walkFrom {id : Nat} {visit : Visit} (h : visit ∈ tree.walkFrom id) :
    tree.Below id visit.id := by
  obtain ⟨parent, hwithin, hparent, -⟩ := mem_walkFrom_iff.1 h
  exact Relation.TransGen.tail' hwithin hparent

/-- Children stand in their list in order. -/
theorem pairwise_children (tree : Tree) (id : Nat) :
    (tree.children id).toList.Pairwise tree.Precedes := by
  rw [List.pairwise_iff_getElem]
  intro place later hplace hlater hlt
  refine ⟨id, place, later, hlt, ?_, ?_⟩
  · rw [← Array.getElem?_toList, List.getElem?_eq_getElem hplace]
  · rw [← Array.getElem?_toList, List.getElem?_eq_getElem hlater]

/-- The walk goes in document order. -/
theorem pairwise_walkFrom (tree : Tree) (id : Nat) :
    (tree.walkFrom id).Pairwise fun first second => tree.Before first.id second.id := by
  have hwithin : ∀ (child : Nat) (enclosing : Enclosing) (visit : Visit),
      visit ∈ ⟨child, enclosing⟩ :: tree.walkFrom child → tree.Within child visit.id := by
    intro child enclosing visit hvisit
    rcases List.mem_cons.1 hvisit with rfl | hvisit
    · exact .refl
    · exact (below_of_mem_walkFrom hvisit).to_reflTransGen
  induction id using tree.children_induction with
  | step id ih =>
    rw [walkFrom_eq, List.pairwise_flatMap]
    constructor
    · intro child hchild
      refine List.pairwise_cons.2 ⟨fun visit hvisit => ?_, ih child (Array.mem_toList_iff.1 hchild)⟩
      exact .inl (below_of_mem_walkFrom hvisit)
    · apply (tree.pairwise_children id).imp
      intro left right hprecedes first hfirst second hsecond
      exact .inr ⟨left, right, hprecedes, hwithin _ _ _ hfirst, hwithin _ _ _ hsecond⟩

/-- The walk of a tree meets every node but the root. -/
theorem Linked.mem_map_walk_iff (h : Linked tree) {id : Nat} :
    id ∈ tree.walk.map Visit.id ↔ id ≠ 0 ∧ id < tree.size := by
  constructor
  · intro hmem
    obtain ⟨visit, hvisit, rfl⟩ := List.mem_map.1 hmem
    obtain ⟨parent, -, hparent, -⟩ := mem_walkFrom_iff.1 hvisit
    have hlt := (lt_of_mem_children hparent).2
    exact ⟨by omega, h.lt_of_mem hparent⟩
  · intro hid
    rcases hid with ⟨hne, hsize⟩
    obtain ⟨parent, hwithin, hparent⟩ :=
      Relation.TransGen.tail'_iff.1 (h.below_root (Nat.pos_of_ne_zero hne) hsize)
    refine List.mem_map.2 ⟨⟨id, tree.enclosingOfChildren parent⟩, ?_, rfl⟩
    exact mem_walkFrom_iff.2 ⟨parent, hwithin, hparent, rfl⟩

end SelectorLint.Selector.Tree
