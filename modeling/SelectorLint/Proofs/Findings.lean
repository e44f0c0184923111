import SelectorLint.Policy
import SelectorLint.Proofs.Selector.Placement
import SelectorLint.Proofs.Tree.Order

/-!
# Which nodes the nesting policy finds

The findings of a policy, said by what a node stands beside and in, and not by how the policy goes about
it (`evaluate_built`). This holds for every tree that was built by adding nodes, also for those that no
selector has.

A list of nodes is tied to a condition by `Lists`: it has just the nodes that meet the condition, each
once, in document order.

The last section says where findings stand: at nodes, in the order of the nodes (`sublist_offsets`), and
where a finding names a node, at that one (`label_of_expected`).
-/

namespace SelectorLint.Policy

open Selector

/-- The text ends in an interpolation on one line that is not empty. -/
def EndsInInterpolation (text : List Char) : Prop :=
  ∃ before inner, text = before ++ '#' :: '{' :: inner ++ ['}'] ∧ inner ≠ [] ∧ '\n' ∉ inner

/-- The kinds of the simple selectors that make up compounds. -/
def simpleKinds : List Kind := [.attr, .className, .id, .pseudo, .tag, .universal]

/-- The node is one simple selector of a compound. -/
def Chains (tree : Tree) (id : Nat) : Prop := ∃ kind ∈ simpleKinds, tree.kind? id = some kind

/-- The node stands in a group that is an argument of a pseudo-class. -/
def InArgument (tree : Tree) (id : Nat) : Prop :=
  ∃ group pseudo, tree.IsParent group id ∧ tree.kind? group = some .selector ∧
    tree.IsParent pseudo group ∧ tree.kind? pseudo = some .pseudo

/-- The node should have been nested, in a selector with this text. -/
structure Flat (tree : Tree) (text : List Char) (id : Nat) (node : Node) : Prop where
  id_ne : id ≠ 0
  value_ne : node.value ≠ "\x7d"
  not_inArgument : ¬InArgument tree id
  not_before_nesting : ∀ sibling, tree.Precedes id sibling → tree.kind? sibling ≠ some .nesting
  chains : ∃ previous, tree.Adjacent previous id ∧ Chains tree previous ∧
    (node.kind = .combinator ∧ (∃ next, tree.Adjacent id next ∧ Chains tree next) ∨
      node.kind ∈ simpleKinds ∧ ¬EndsInInterpolation text)

/-- The list has the nodes that meet the condition, each once and in document order. -/
structure Lists (tree : Tree) (condition : Nat → Node → Prop) (entries : List (Nat × Node)) : Prop where
  mem_iff : ∀ id node, (id, node) ∈ entries ↔ tree.nodes[id]? = some node ∧ condition id node
  ordered : entries.Pairwise fun first second => tree.Before first.1 second.1
  nodup : entries.Nodup

/-! ## The parts of the condition -/

theorem startsHere_iff {c : Char} {rest : List Char} :
    endsInInterpolation.startsHere c rest ↔
      ∃ inner, c :: rest = '#' :: '{' :: inner ++ ['}'] ∧ inner ≠ [] ∧ '\n' ∉ inner := by
  unfold endsInInterpolation.startsHere
  split
  next tail =>
    simp only [Bool.and_eq_true, decide_eq_true_eq, List.getLast?_eq_some_iff]
    constructor
    · intro hends
      rcases hends with ⟨⟨hlength, inner, rfl⟩, hline⟩
      refine ⟨inner, rfl, ?_, by simpa using hline⟩
      intro heq
      subst heq
      simp at hlength
    · intro hends
      rcases hends with ⟨inner, heq, hne, hline⟩
      obtain rfl : tail = inner ++ ['}'] := by simpa using heq
      have hpos := List.length_pos_iff.2 hne
      refine ⟨⟨?_, inner, rfl⟩, by simpa using hline⟩
      rw [List.length_append, List.length_singleton]
      omega
  next hother =>
    apply iff_of_false (by simp)
    intro hends
    rcases hends with ⟨inner, heq, -⟩
    obtain ⟨hc, hrest⟩ := List.cons.inj heq
    exact hother _ hc hrest

theorem endsInInterpolation_iff {text : List Char} :
    endsInInterpolation text ↔ EndsInInterpolation text := by
  induction text with
  | nil =>
    apply iff_of_false (by simp [endsInInterpolation])
    intro hends
    rcases hends with ⟨before, inner, heq, -⟩
    simp at heq
  | cons c rest ih =>
    rw [endsInInterpolation, Bool.or_eq_true, ih, startsHere_iff]
    constructor
    · intro hends
      rcases hends with ⟨inner, heq, hinner⟩ | ⟨before, inner, rfl, hinner⟩
      · exact ⟨[], inner, heq, hinner⟩
      · exact ⟨c :: before, inner, rfl, hinner⟩
    · intro hends
      rcases hends with ⟨_ | ⟨d, before⟩, inner, heq, hinner⟩
      · exact .inl ⟨inner, heq, hinner⟩
      · exact .inr ⟨before, inner, (List.cons.inj heq).2, hinner⟩

section Conditions

variable {tree : Tree} {id : Nat}

theorem isChaining_iff_mem (kind : Kind) : kind.isChaining ↔ kind ∈ simpleKinds := by
  cases kind <;> decide

theorem isChaining_iff {sibling : Option Nat} :
    isChaining tree sibling ↔ ∃ id, sibling = some id ∧ Chains tree id := by
  unfold isChaining
  cases sibling with
  | none => simp
  | some id =>
    simp only [Option.bind_some, Option.some.injEq, Chains, exists_eq_left']
    cases tree.kind? id <;> simp [isChaining_iff_mem]

theorem precedesNesting_iff (h : tree.Linked) :
    precedesNesting tree id ↔
      ∃ sibling, tree.Precedes id sibling ∧ tree.kind? sibling = some .nesting := by
  unfold precedesNesting
  rw [Array.any_eq_true']
  refine exists_congr fun sibling => and_congr h.mem_following_iff ?_
  unfold Tree.kind?
  cases tree.nodes[sibling]? with
  | none => simp
  | some node => simp

theorem enclosing_eq_argument_iff (h : tree.Linked) {parent : Nat} (hparent : tree.IsParent parent id) :
    tree.enclosingOfChildren parent = .argument ↔ InArgument tree id := by
  unfold Tree.enclosingOfChildren
  constructor
  · intro hargument
    split at hargument
    next hgroup =>
      split at hargument
      next hpseudo =>
        obtain ⟨pseudo, hname, hkind⟩ := Option.bind_eq_some_iff.1 hpseudo
        exact ⟨parent, pseudo, hparent, hgroup, h.parent?_eq_some_iff.1 hname, hkind⟩
      · cases hargument
    · cases hargument
  · intro hin
    rcases hin with ⟨group, pseudo, hgroup, hselector, hpseudo, hkind⟩
    obtain rfl := h.isParent_unique hparent hgroup
    rw [if_pos hselector, h.parent?_eq_some_iff.2 hpseudo, Option.bind_some, if_pos hkind]

/-- A node that should be nested, before the exceptions. -/
theorem shouldNest_iff (h : tree.Linked) {node : Node} (hnode : tree.nodes[id]? = some node)
    {interpolated : Bool} :
    shouldNest tree id interpolated ↔ ∃ previous, tree.Adjacent previous id ∧ Chains tree previous ∧
      (node.kind = .combinator ∧ (∃ next, tree.Adjacent id next ∧ Chains tree next) ∨
        node.kind ∈ simpleKinds ∧ interpolated = false) := by
  rw [← isChaining_iff_mem]
  have hkind : tree.kind? id = some node.kind := by rw [Tree.kind?, hnode, Option.map_some]
  have hprevious : isChaining tree (tree.previous? id) ↔
      ∃ previous, tree.Adjacent previous id ∧ Chains tree previous := by
    simp only [isChaining_iff, h.previous?_eq_some_iff]
  have hnext : isChaining tree (tree.next? id) ↔ ∃ next, tree.Adjacent id next ∧ Chains tree next := by
    simp only [isChaining_iff, h.next?_eq_some_iff]
  rw [shouldNest, hkind]
  by_cases hcombinator : node.kind = .combinator
  · simp only [hcombinator, Bool.and_eq_true, hprevious, hnext, Kind.isChaining]
    constructor
    · intro hboth
      rcases hboth with ⟨⟨previous, hadjacent, hchains⟩, hafter⟩
      exact ⟨previous, hadjacent, hchains, .inl ⟨trivial, hafter⟩⟩
    · intro hnest
      rcases hnest with ⟨previous, hadjacent, hchains, ⟨-, hafter⟩ | ⟨hfalse, -⟩⟩
      · exact ⟨⟨previous, hadjacent, hchains⟩, hafter⟩
      · cases hfalse
  · split
    next heq => exact absurd (Option.some.inj heq) hcombinator
    next kind _ heq =>
      obtain rfl : node.kind = kind := Option.some.inj heq
      simp only [Bool.and_eq_true, hprevious, Bool.not_eq_true']
      constructor
      · intro hall
        rcases hall with ⟨⟨hself, previous, hadjacent, hchains⟩, hplain⟩
        exact ⟨previous, hadjacent, hchains, .inr ⟨hself, hplain⟩⟩
      · intro hnest
        rcases hnest with ⟨previous, hadjacent, hchains, ⟨hfalse, -⟩ | ⟨hself, hplain⟩⟩
        · exact absurd hfalse hcombinator
        · exact ⟨⟨hself, previous, hadjacent, hchains⟩, hplain⟩
    next heq => cases heq

/-- What `always` has against a node that stands under `parent`. -/
theorem reasonAgainst_always_iff (h : tree.Linked) {parent : Nat} {node : Node} {text : List Char}
    (hparent : tree.IsParent parent id) (hnode : tree.nodes[id]? = some node) :
    (reasonAgainst .always tree ⟨id, tree.enclosingOfChildren parent⟩ node
      (endsInInterpolation text)).isSome ↔ Flat tree text id node := by
  have hid : id ≠ 0 := by
    have hlt := (Tree.lt_of_mem_children hparent).2
    omega
  have hplain : endsInInterpolation text = false ↔ ¬EndsInInterpolation text := by
    rw [← endsInInterpolation_iff, Bool.not_eq_true]
  by_cases hvalue : node.value = "\x7d"
  · rw [reasonAgainst, if_pos hvalue]
    exact iff_of_false (by simp) fun hflat => hflat.value_ne hvalue
  · have hsome : (againstFlat tree ⟨id, tree.enclosingOfChildren parent⟩ node
        (endsInInterpolation text)).isSome ↔ tree.enclosingOfChildren parent ≠ .argument ∧
          shouldNest tree id (endsInInterpolation text) ∧ ¬precedesNesting tree id := by
      unfold againstFlat
      split <;> simp_all [and_assoc]
    rw [reasonAgainst, if_neg hvalue, hsome, shouldNest_iff h hnode, precedesNesting_iff h, hplain]
    constructor
    · intro hall
      rcases hall with ⟨hargument, hchains, hnesting⟩
      refine ⟨hid, hvalue, fun hin => hargument ((enclosing_eq_argument_iff h hparent).2 hin), ?_, hchains⟩
      exact fun sibling hprecedes hkind => hnesting ⟨sibling, hprecedes, hkind⟩
    · intro hflat
      refine ⟨fun hin => hflat.not_inArgument ((enclosing_eq_argument_iff h hparent).1 hin),
        hflat.chains, ?_⟩
      intro hlater
      rcases hlater with ⟨sibling, hprecedes, hkind⟩
      exact hflat.not_before_nesting sibling hprecedes hkind

/-- What `never` has against a node that stands under `parent`. -/
theorem reasonAgainst_never_iff {parent : Nat} {node : Node} {enclosing : Enclosing}
    {interpolated : Bool} (hparent : tree.IsParent parent id) :
    (reasonAgainst .never tree ⟨id, enclosing⟩ node interpolated).isSome ↔
      id ≠ 0 ∧ node.value ≠ "\x7d" := by
  have hlt := (Tree.lt_of_mem_children hparent).2
  have hid : id ≠ 0 := by omega
  rw [reasonAgainst]
  split
  next hvalue => simp [hvalue]
  next hvalue => simp [hid, hvalue]

end Conditions

/-! ## Listing nodes -/

/-- The node that is visited, if it passes a test. -/
def pass? (tree : Tree) (test : Visit → Node → Bool) (visit : Visit) : Option (Nat × Node) :=
  tree.nodes[visit.id]?.bind fun node => if test visit node then some (visit.id, node) else none

/-- The nodes of a tree that pass a test, in the order of the walk. -/
def passing (tree : Tree) (test : Visit → Node → Bool) : List (Nat × Node) :=
  tree.walk.filterMap (pass? tree test)

theorem pass?_eq_some_iff {tree : Tree} {test : Visit → Node → Bool} {visit : Visit} {id : Nat}
    {node : Node} : pass? tree test visit = some (id, node) ↔
      visit.id = id ∧ tree.nodes[id]? = some node ∧ test visit node := by
  unfold pass?
  constructor
  · intro hsome
    obtain ⟨found, hfound, hif⟩ := Option.bind_eq_some_iff.1 hsome
    split at hif
    next htest =>
      cases hif
      exact ⟨rfl, hfound, htest⟩
    · cases hif
  · intro hpasses
    rcases hpasses with ⟨rfl, hnode, htest⟩
    rw [hnode, Option.bind_some, if_pos htest]

theorem lists_passing {tree : Tree} (h : tree.Linked) {test : Visit → Node → Bool}
    {condition : Nat → Node → Prop} (hroot : ∀ node, ¬condition 0 node)
    (htest : ∀ parent id node, tree.IsParent parent id → tree.nodes[id]? = some node →
      (test ⟨id, tree.enclosingOfChildren parent⟩ node ↔ condition id node)) :
    Lists tree condition (passing tree test) := by
  have hordered : (passing tree test).Pairwise fun first second => tree.Before first.1 second.1 := by
    apply (tree.pairwise_walkFrom 0).filterMap
    intro first second hbefore entry hentry other hother
    rw [← (pass?_eq_some_iff.1 hentry).1, ← (pass?_eq_some_iff.1 hother).1]
    exact hbefore
  refine ⟨?_, hordered, ?_⟩
  · intro id node
    rw [passing, List.mem_filterMap]
    constructor
    · intro hentry
      rcases hentry with ⟨visit, hvisit, hsome⟩
      obtain ⟨rfl, hnode, hpasses⟩ := pass?_eq_some_iff.1 hsome
      obtain ⟨parent, -, hparent, henclosing⟩ := Tree.mem_walkFrom_iff.1 hvisit
      refine ⟨hnode, (htest parent visit.id node hparent hnode).1 ?_⟩
      rw [← henclosing]
      exact hpasses
    · intro hmeets
      rcases hmeets with ⟨hnode, hcondition⟩
      have hne : id ≠ 0 := by
        intro heq
        subst heq
        exact hroot node hcondition
      have hmem := h.mem_map_walk_iff.2 ⟨hne, Tree.lt_of_getElem? hnode⟩
      obtain ⟨visit, hvisit, rfl⟩ := List.mem_map.1 hmem
      obtain ⟨parent, -, hparent, henclosing⟩ := Tree.mem_walkFrom_iff.1 hvisit
      refine ⟨visit, hvisit, pass?_eq_some_iff.2 ⟨rfl, hnode, ?_⟩⟩
      have hpasses := (htest parent visit.id node hparent hnode).2 hcondition
      rwa [← henclosing] at hpasses
  · apply hordered.imp
    rintro first second hbefore rfl
    exact h.before_irrefl _ hbefore

/-- The findings come from the nodes that there is a reason against. -/
theorem filterMap_findingAt {tree : Tree} {expectation : Expectation} {interpolated : Bool}
    (reason : Node → Reason)
    (hreason : ∀ visit node found, reasonAgainst expectation tree visit node interpolated = some found →
      found = reason node) :
    tree.walk.filterMap (findingAt expectation tree interpolated) =
      (passing tree fun visit node =>
        (reasonAgainst expectation tree visit node interpolated).isSome).map
          fun entry => ⟨reason entry.2, entry.2.offset⟩ := by
  rw [passing, List.map_filterMap]
  congr 1
  funext visit
  unfold findingAt pass?
  cases tree.nodes[visit.id]? with
  | none => rfl
  | some node =>
    simp only [Option.bind_eq_bind, Option.bind_some]
    rcases Option.eq_none_or_eq_some (reasonAgainst expectation tree visit node interpolated) with
      hnone | ⟨found, hfound⟩
    · simp [hnone]
    · simp [hfound, hreason visit node found hfound]

theorem reason_eq_of_always {tree : Tree} {visit : Visit} {node : Node} {interpolated : Bool}
    {found : Reason} (h : reasonAgainst .always tree visit node interpolated = some found) :
    found = if interpolated then .expectedInterpolation else .expected node.value node.kind := by
  unfold reasonAgainst at h
  split at h
  · cases h
  · unfold againstFlat at h
    simp only at h
    split at h
    · exact (Option.some.inj h).symm
    · cases h

theorem reason_eq_of_never {tree : Tree} {visit : Visit} {node : Node} {interpolated : Bool}
    {found : Reason} (h : reasonAgainst .never tree visit node interpolated = some found) :
    found = .rejected := by
  unfold reasonAgainst at h
  split at h
  · cases h
  · exact (Option.some.inj h).symm

/-- What a policy reports, for any tree, any text and any parent.

Each finding of `always` is at a node that should have been nested, and the other way round. Under
`never` it is at any node with a value other than a brace, unless the rule is at the top level. -/
theorem evaluate_built {tree : Tree} (h : tree.Built) (selector : String)
    (parent : Stylesheet.Parent) :
    (∃ entries, Lists tree (Flat tree selector.toList) entries ∧
      (EndsInInterpolation selector.toList →
        evaluate ⟨.always, .each⟩ tree selector parent =
          entries.map fun entry => ⟨.expectedInterpolation, entry.2.offset⟩) ∧
      (¬EndsInInterpolation selector.toList →
        evaluate ⟨.always, .each⟩ tree selector parent =
          entries.map fun entry => ⟨.expected entry.2.value entry.2.kind, entry.2.offset⟩)) ∧
    (parent = .root ∨ (∃ name, parent = .atRule name) →
      evaluate ⟨.never, .each⟩ tree selector parent = []) ∧
    (parent = .rule →
      ∃ entries, Lists tree (fun id node => id ≠ 0 ∧ node.value ≠ "\x7d") entries ∧
        evaluate ⟨.never, .each⟩ tree selector parent =
          entries.map fun entry => ⟨.rejected, entry.2.offset⟩) ∧
    ∀ expectation, evaluate ⟨expectation, .last⟩ tree selector parent =
      (evaluate ⟨expectation, .each⟩ tree selector parent).getLast?.toList := by
  have hlinked := h.linked
  let interpolated := endsInInterpolation selector.toList
  have halways : Lists tree (Flat tree selector.toList) (passing tree fun visit node =>
      (reasonAgainst .always tree visit node interpolated).isSome) :=
    lists_passing hlinked (fun node hflat => hflat.id_ne rfl)
      fun above id node habove hnode => reasonAgainst_always_iff hlinked habove hnode
  have hnever : Lists tree (fun id node => id ≠ 0 ∧ node.value ≠ "\x7d")
      (passing tree fun visit node => (reasonAgainst .never tree visit node interpolated).isSome) :=
    lists_passing hlinked (fun node hboth => hboth.1 rfl)
      fun above id node habove hnode => reasonAgainst_never_iff habove
  refine ⟨⟨_, halways, ?_, ?_⟩, ?_, ?_, fun _ => rfl⟩
  · intro hinterpolated
    have htrue : interpolated = true := endsInInterpolation_iff.2 hinterpolated
    refine filterMap_findingAt (fun _ => .expectedInterpolation) fun visit node found hfound => ?_
    rw [reason_eq_of_always hfound]
    exact if_pos htrue
  · intro hplain
    have hfalse : ¬interpolated = true := fun htrue => hplain (endsInInterpolation_iff.1 htrue)
    refine filterMap_findingAt (fun node => .expected node.value node.kind)
      fun visit node found hfound => ?_
    rw [reason_eq_of_always hfound]
    exact if_neg hfalse
  · rintro (rfl | ⟨name, rfl⟩) <;> rfl
  · intro heq
    subst heq
    exact ⟨_, hnever, filterMap_findingAt (fun _ => .rejected)
      fun visit node found hfound => reason_eq_of_never hfound⟩

/-- The tree of a class and an id, both under the root. -/
def compound : Tree := (Tree.empty.append 0 .className "a" 0).append 0 .id "b" 2

theorem evaluate_built_compound :
    compound.Built ∧ ¬EndsInInterpolation ".a#b".toList ∧
    (∃ entries, Lists compound (Flat compound ".a#b".toList) entries ∧
      entries.map (fun entry => (⟨.expected entry.2.value entry.2.kind, entry.2.offset⟩ : Finding)) =
        [⟨.expected "b" .id, 2⟩]) ∧
    evaluate ⟨.always, .each⟩ compound ".a#b" .rule = [⟨.expected "b" .id, 2⟩] ∧
    (∃ entries, Lists compound (fun id node => id ≠ 0 ∧ node.value ≠ "\x7d") entries ∧
      entries.map (fun entry => (⟨.rejected, entry.2.offset⟩ : Finding)) = [⟨.rejected, 0⟩, ⟨.rejected, 2⟩]) ∧
    evaluate ⟨.never, .each⟩ compound ".a#b" .rule = [⟨.rejected, 0⟩, ⟨.rejected, 2⟩] ∧
    evaluate ⟨.never, .last⟩ compound ".a#b" .rule = [⟨.rejected, 2⟩] ∧
    evaluate ⟨.never, .each⟩ compound ".a#b" .root = [] := by
  have hbuilt : compound.Built := .append (.append .empty (by decide) _ _ _) (by decide) _ _ _
  have hends : ¬EndsInInterpolation ".a#b".toList := by
    rw [← endsInInterpolation_iff]
    decide
  obtain ⟨⟨entries, hlists, -, hplain⟩, -, hnever, hlast⟩ := evaluate_built hbuilt ".a#b" .rule
  obtain ⟨rejected, hrejected, heach⟩ := hnever rfl
  have halways : evaluate ⟨.always, .each⟩ compound ".a#b" .rule = [⟨.expected "b" .id, 2⟩] := by decide +kernel
  have hboth : evaluate ⟨.never, .each⟩ compound ".a#b" .rule = [⟨.rejected, 0⟩, ⟨.rejected, 2⟩] := by decide +kernel
  refine ⟨hbuilt, hends, ⟨entries, hlists, (hplain hends).symm.trans halways⟩, halways,
    ⟨rejected, hrejected, heach.symm.trans hboth⟩, hboth, ?_, ?_⟩
  · rw [hlast .never, hboth]
    rfl
  · exact (evaluate_built hbuilt ".a#b" .root).2.1 (.inl rfl)

/-! ## Where findings stand -/

section Places

variable {tree : Tree} {expectation : Expectation} {interpolated : Bool} {visit : Visit} {finding : Finding}

theorem exists_node_of_findingAt (h : findingAt expectation tree interpolated visit = some finding) :
    ∃ node, tree.nodes[visit.id]? = some node ∧ finding.offset = node.offset ∧
      reasonAgainst expectation tree visit node interpolated = some finding.reason := by
  unfold findingAt at h
  simp only [Option.bind_eq_bind, Option.bind_eq_some_iff, Option.pure_def, Option.some.injEq] at h
  obtain ⟨node, hnode, reason, hreason, rfl⟩ := h
  exact ⟨node, hnode, rfl, hreason⟩

/-- A node that is named as the reason is a combinator or a simple selector. -/
theorem kind_of_reasonAgainst {node : Node} {value : String} {kind : Kind}
    (hnode : tree.nodes[visit.id]? = some node)
    (h : reasonAgainst expectation tree visit node interpolated = some (.expected value kind)) :
    node.value = value ∧ node.kind = kind ∧ (kind = .combinator ∨ kind.isChaining) := by
  cases expectation with
  | never => cases reason_eq_of_never h
  | always =>
    have hreason := reason_eq_of_always h
    split at hreason
    · cases hreason
    · cases hreason
      refine ⟨rfl, rfl, ?_⟩
      unfold reasonAgainst againstFlat at h
      split at h
      · cases h
      · simp only at h
        split at h
        next hflat =>
          simp only [Bool.and_eq_true] at hflat
          have hnest := hflat.1.2
          unfold shouldNest at hnest
          rw [Tree.kind?, hnode, Option.map_some] at hnest
          split at hnest
          next heq => exact .inl (Option.some.inj heq)
          next heq =>
            simp only [Bool.and_eq_true] at hnest
            obtain rfl := Option.some.inj heq
            exact .inr hnest.1.1
          next heq => cases heq
        · cases h

theorem sublist_findings (policy : Policy) (tree : Tree) (selector : String)
    (parent : Stylesheet.Parent) :
    (policy.evaluate tree selector parent).Sublist
      (tree.walk.filterMap (findingAt policy.expectation tree (endsInInterpolation selector.toList))) := by
  have hall : (findings policy.expectation tree selector parent).Sublist
      (tree.walk.filterMap (findingAt policy.expectation tree (endsInInterpolation selector.toList))) := by
    unfold findings
    split
    · exact List.nil_sublist _
    · exact List.Sublist.refl _
  unfold evaluate
  dsimp only
  split
  · exact hall
  · refine List.Sublist.trans ?_ hall
    rcases List.eq_nil_or_concat (findings policy.expectation tree selector parent) with
      hnil | ⟨front, last, heq⟩
    · rw [hnil]
      exact List.Sublist.refl _
    · rw [heq, List.concat_eq_append, List.getLast?_concat]
      exact List.sublist_append_right _ _

theorem sublist_offsets_filterMap (visits : List Visit) :
    ((visits.filterMap (findingAt expectation tree interpolated)).map Finding.offset).Sublist
      ((visits.filterMap fun visit => tree.nodes[visit.id]?.map Node.label).map Label.offset) := by
  induction visits with
  | nil => exact List.Sublist.refl _
  | cons visit visits ih =>
    cases hfinding : findingAt expectation tree interpolated visit with
    | none =>
      rw [List.filterMap_cons_none hfinding]
      refine ih.trans (List.Sublist.map _ ?_)
      exact List.Sublist.filterMap _ (List.sublist_cons_self _ _)
    | some finding =>
      obtain ⟨node, hnode, hoffset, -⟩ := exists_node_of_findingAt hfinding
      have hlabel : tree.nodes[visit.id]?.map Node.label = some node.label := by rw [hnode, Option.map_some]
      rw [List.filterMap_cons_some hfinding, List.filterMap_cons, hlabel, List.map_cons, List.map_cons,
        hoffset]
      exact ih.cons_cons _

/-- The offsets of findings are offsets of nodes in document order. -/
theorem sublist_offsets (policy : Policy) (tree : Tree) (selector : String)
    (parent : Stylesheet.Parent) :
    ((policy.evaluate tree selector parent).map Finding.offset).Sublist (tree.labels.map Label.offset) :=
  ((sublist_findings policy tree selector parent).map _).trans (sublist_offsets_filterMap _)

/-- A finding that names a node names one of the tree, and this is a combinator or a simple selector. -/
theorem label_of_expected {policy : Policy} {selector : String} {parent : Stylesheet.Parent}
    {value : String} {kind : Kind} (hfinding : finding ∈ policy.evaluate tree selector parent)
    (hreason : finding.reason = .expected value kind) :
    ⟨kind, value, finding.offset⟩ ∈ tree.labels ∧ (kind = .combinator ∨ kind.isChaining) := by
  have hmem := (sublist_findings policy tree selector parent).subset hfinding
  obtain ⟨visit, hvisit, hat⟩ := List.mem_filterMap.1 hmem
  obtain ⟨node, hnode, hoffset, hagainst⟩ := exists_node_of_findingAt hat
  rw [hreason] at hagainst
  obtain ⟨rfl, rfl, hkind⟩ := kind_of_reasonAgainst hnode hagainst
  refine ⟨List.mem_filterMap.2 ⟨visit, hvisit, ?_⟩, hkind⟩
  rw [hnode, Option.map_some, hoffset]
  rfl

end Places

end SelectorLint.Policy
