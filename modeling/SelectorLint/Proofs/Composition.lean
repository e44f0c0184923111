import SelectorLint.Policy
import SelectorLint.Proofs.Selector.Boundaries
import SelectorLint.Proofs.Selector.Offsets
import SelectorLint.Proofs.Selector.Shape

/-!
# Selector lists compose

Two selectors with a comma between them parse to the tree of the first and then that of the second, and the
policy finds in it what it finds in both (`parse_comma`).

The lexemes are those of both with a comma between them, since a comma goes with nothing before it. So the
branches are those of both, the second further along, and the trees are joined. A finding depends only on
what stands beside and above its node, which is the same in the larger tree (`findingAt_embeds`). The one
exception are the groups, which get more siblings; but `always` has nothing against a group.
-/

namespace SelectorLint

open Text

namespace Selector

open Branch Grammar

/-! ## The branches of a list -/

theorem othersLexemes_append (front back : List (List Item)) :
    othersLexemes (front ++ back) = othersLexemes front ++ othersLexemes back := by
  induction front with
  | nil => rfl
  | cons group front ih => simp [othersLexemes, ih]

theorem othersBranches_append (offset : Nat) (front : List (List Item)) (first : List Item)
    (others : List (List Item)) :
    othersBranches offset (front ++ first :: others) =
      othersBranches offset front ++
        listBranches (offset + width (othersLexemes front) + 1) first others := by
  induction front generalizing offset with
  | nil => simp [othersBranches, othersLexemes, listBranches]
  | cons group front ih =>
    have hwidth : offset + 1 + width (groupLexemes group) + width (othersLexemes front) =
        offset + width (othersLexemes (group :: front)) := by
      have hcomma : byteLength Lexeme.comma.text = 1 := rfl
      rw [othersLexemes, width_cons, width_append, hcomma]
      omega
    rw [List.cons_append, othersBranches, othersBranches, ih, hwidth, List.append_assoc]

theorem listBranches_append (offset : Nat) (left : List Item) (lefts : List (List Item))
    (right : List Item) (rights : List (List Item)) :
    listBranches offset left (lefts ++ right :: rights) =
      listBranches offset left lefts ++
        listBranches (offset + width (listLexemes left lefts) + 1) right rights := by
  rw [listBranches, listBranches, othersBranches_append, listLexemes, width_append, List.append_assoc,
    Nat.add_assoc offset]

/-- The list with a comma in the middle is valid if both sides are. -/
theorem ValidList.append {left right : List Item} {lefts rights : List (List Item)}
    (hleft : ValidList left lefts) (hright : ValidList right rights) :
    ValidList left (lefts ++ right :: rights) := by
  constructor
  · rw [← List.cons_append]
    exact List.forall_mem_append.2 ⟨hleft.fits, hright.fits⟩
  · rw [← List.cons_append]
    exact List.forall_mem_append.2 ⟨hleft.items, hright.items⟩

/-- The tree of two selectors with a comma between them. -/
theorem exists_isJoin_of_parse {left right : String} {leftTree rightTree : Tree}
    (hleft : parse left = .ok leftTree) (hright : parse right = .ok rightTree) :
    ∃ joined, parse (left ++ "," ++ right) = .ok joined ∧
      Tree.IsJoin leftTree rightTree (byteLength left.toList + 1) joined := by
  obtain ⟨first, lefts, hleftValid, hleftLexemes, rfl⟩ := parse_eq_ok_iff.1 hleft
  obtain ⟨second, rights, hrightValid, hrightLexemes, rfl⟩ := parse_eq_ok_iff.1 hright
  have hwidth : width (listLexemes first lefts) = byteLength left.toList := by
    rw [width, written_of_lexemes hleftLexemes]
  refine ⟨_, parse_eq_ok_iff.2 ⟨first, lefts ++ second :: rights, hleftValid.append hrightValid, ?_, rfl⟩, ?_⟩
  · have hlexemes := lexemes_append_comma hleftLexemes hrightLexemes
    simpa [listLexemes, othersLexemes_append, othersLexemes] using hlexemes
  · have hmoved := listBranches_add (byteLength left.toList + 1) second rights 0
    rw [listBranches_append, Nat.zero_add, hwidth, ← Nat.add_zero (byteLength left.toList + 1), hmoved]
    exact Tree.isJoin_graftAll _ _ _

/-- The tree has only groups below its root, as that of a selector list. -/
structure Tree.HasGroups (tree : Tree) : Prop where
  linked : tree.Linked
  root : tree.kind? 0 = some .root
  groups : ∀ child ∈ tree.children 0, tree.kind? child = some .selector

theorem hasGroups_of_parse {selector : String} {tree : Tree} (h : parse selector = .ok tree) :
    tree.HasGroups := by
  have hlinked := (built_of_parse h).linked
  obtain ⟨first, others, -, -, rfl⟩ := parse_eq_ok_iff.1 h
  refine ⟨hlinked, ?_, ?_⟩
  · rw [Tree.kind?_eq_map_label?, Tree.label?_zero_graftAll]
    rfl
  · intro child hchild
    have hlabels := Tree.map_label?_groups_graftAll (listBranches 0 first others)
    generalize Tree.empty.graftAll 0 (listBranches 0 first others) = tree at *
    have hmem : tree.label? child ∈ (tree.children 0).toList.map tree.label? :=
      List.mem_map_of_mem (Array.mem_toList_iff.2 hchild)
    rw [hlabels] at hmem
    obtain ⟨branch, hbranch, hlabel⟩ := List.mem_map.1 hmem
    rw [Tree.kind?_eq_map_label?, ← hlabel, Option.map_some, kind_of_mem_listBranches hbranch]

end Selector

/-! ## Findings in a larger tree -/

/-- The finding at a node that is `shift` further along. -/
def Finding.raised (shift : Nat) (finding : Finding) : Finding :=
  { finding with offset := shift + finding.offset }

namespace Policy

open Selector Tree

section Embeds

variable {part whole : Tree} {up shift places id : Nat}

theorem isChaining_embeds (h : Embeds part whole up shift places) (sibling : Option Nat)
    (hsibling : ∀ id, sibling = some id → 0 < id ∧ id < part.size) :
    isChaining whole (sibling.map (up + ·)) = isChaining part sibling := by
  cases sibling with
  | none => rfl
  | some id =>
    obtain ⟨hpos, hlt⟩ := hsibling id rfl
    simp only [isChaining, Option.map_some, Option.bind_some, h.kind?_eq hpos hlt]

/-- Siblings are other children of the same node. -/
theorem bounds_of_mem_children (hlinked : Linked part) {parent sibling : Nat}
    (h : sibling ∈ part.children parent) : 0 < sibling ∧ sibling < part.size := by
  have hgt := (lt_of_mem_children h).2
  exact ⟨by omega, hlinked.lt_of_mem h⟩

variable {node : Node} {parent : Nat}

/-- Below a node other than the root, the siblings of a node are the same. -/
structure SameSiblings (part whole : Tree) (up id : Nat) : Prop where
  previous : whole.previous? (up + id) = (part.previous? id).map (up + ·)
  next : whole.next? (up + id) = (part.next? id).map (up + ·)
  following : whole.following (up + id) = (part.following id).map (up + ·)

theorem sameSiblings_embeds (h : Embeds part whole up shift places) (hpos : 0 < id)
    (hnode : part.nodes[id]? = some node) (hparent : node.parent = some parent) (hne : parent ≠ 0)
    (hlt : parent < part.size) : SameSiblings part whole up id := by
  have hmoved := h.nodes id hpos (lt_of_getElem? hnode)
  rw [hnode, Option.map_some] at hmoved
  have hchildren := h.children_eq (Nat.pos_of_ne_zero hne) hlt
  have hposition : node.parent ≠ some 0 := by
    rw [hparent]
    simpa using hne
  refine ⟨?_, ?_, ?_⟩
  · simp only [previous?, hmoved, hnode, Option.bind_eq_bind, Option.bind_some, Node.moved, hparent,
      Option.map_some, if_neg hne, hchildren]
    cases hplace : node.position with
    | zero => simp [hne]
    | succ place => simp [hne]
  · simp [next?, hmoved, hnode, Node.moved, hparent, hne, hchildren]
  · simp [following, hmoved, hnode, Node.moved, hparent, hne, hchildren]

theorem shouldNest_embeds (h : Embeds part whole up shift places) (hlinked : Linked part) (hpos : 0 < id)
    (hlt : id < part.size) (hsame : SameSiblings part whole up id) (interpolated : Bool) :
    shouldNest whole (up + id) interpolated = shouldNest part id interpolated := by
  have hprevious := isChaining_embeds h (part.previous? id) fun sibling hsibling => by
    obtain ⟨parent, place, hplace, -⟩ := hlinked.previous?_eq_some_iff.1 hsibling
    exact bounds_of_mem_children hlinked (Array.mem_of_getElem? hplace)
  have hnext := isChaining_embeds h (part.next? id) fun sibling hsibling => by
    obtain ⟨parent, place, -, hplace⟩ := hlinked.next?_eq_some_iff.1 hsibling
    exact bounds_of_mem_children hlinked (Array.mem_of_getElem? hplace)
  rw [shouldNest, shouldNest, h.kind?_eq hpos hlt, hsame.previous, hsame.next, hprevious, hnext]

theorem precedesNesting_embeds (h : Embeds part whole up shift places) (hlinked : Linked part)
    (hsame : SameSiblings part whole up id) :
    precedesNesting whole (up + id) = precedesNesting part id := by
  rw [precedesNesting, precedesNesting, hsame.following, Array.any_map, Bool.eq_iff_iff,
    Array.any_eq_true', Array.any_eq_true']
  refine exists_congr fun sibling => and_congr_right fun hmem => ?_
  obtain ⟨parent, place, later, -, -, hlater⟩ := hlinked.mem_following_iff.1 hmem
  obtain ⟨hpos, hlt⟩ := bounds_of_mem_children hlinked (Array.mem_of_getElem? hlater)
  have hnode : part.nodes[sibling]? = some part.nodes[sibling] := Array.getElem?_eq_getElem hlt
  simp [h.nodes sibling hpos hlt, hnode, Node.moved]

/-- A group is no simple selector. -/
theorem againstFlat_group {tree : Tree} {visit : Visit} (h : tree.kind? visit.id = some .selector)
    (node : Node) (interpolated : Bool) : againstFlat tree visit node interpolated = none := by
  simp [againstFlat, shouldNest, h, Kind.isChaining]

variable {visit : Visit}

theorem againstFlat_embeds (h : Embeds part whole up shift places) (hpart : part.HasGroups)
    (hpos : 0 < visit.id)
    (hnode : part.nodes[visit.id]? = some node) (interpolated : Bool) :
    againstFlat whole (visit.raised up) (node.moved up shift places) interpolated =
      againstFlat part visit node interpolated := by
  have hlt := lt_of_getElem? hnode
  cases hparent : node.parent with
  | none =>
    have hzero := (hpart.linked.root visit.id node hnode).1 hparent
    omega
  | some parent =>
    have hmem := Array.mem_of_getElem? (hpart.linked.up visit.id node parent hnode hparent)
    by_cases hzero : parent = 0
    · subst hzero
      have hgroup := hpart.groups visit.id hmem
      rw [againstFlat_group hgroup, againstFlat_group]
      exact (h.kind?_eq hpos hlt).trans hgroup
    · have hsame := sameSiblings_embeds h hpos hnode hparent hzero (lt_of_mem_children hmem).1
      rw [againstFlat, againstFlat, Visit.raised, shouldNest_embeds h hpart.linked hpos hlt hsame,
        precedesNesting_embeds h hpart.linked hsame]
      rfl

/-- The policy finds at a node of a larger tree what it finds at it in its own. -/
theorem findingAt_embeds (h : Embeds part whole up shift places) (hpart : part.HasGroups)
    (hpos : 0 < visit.id)
    (hlt : visit.id < part.size) (expectation : Expectation) (interpolated : Bool) :
    findingAt expectation whole interpolated (visit.raised up) =
      (findingAt expectation part interpolated visit).map (Finding.raised shift) := by
  have hnode : part.nodes[visit.id]? = some part.nodes[visit.id] := Array.getElem?_eq_getElem hlt
  have hflat := againstFlat_embeds h hpart hpos hnode interpolated
  have hmoved := h.nodes visit.id hpos hlt
  generalize part.nodes[visit.id] = node at *
  rw [hnode, Option.map_some] at hmoved
  have hreason : reasonAgainst expectation whole (visit.raised up) (node.moved up shift places)
      interpolated = reasonAgainst expectation part visit node interpolated := by
    simp only [reasonAgainst, hflat]
    rfl
  simp only [findingAt, Visit.raised, hmoved, hnode, Option.bind_eq_bind, Option.bind_some]
  rw [Visit.raised] at hreason
  rw [hreason]
  cases reasonAgainst expectation part visit node interpolated with
  | none => rfl
  | some reason => rfl

/-- The findings of a tree, in a larger one. -/
theorem filterMap_findingAt_embeds (h : Embeds part whole up shift places) (hpart : part.HasGroups)
    (expectation : Expectation) (interpolated : Bool) :
    (part.walk.map (Visit.raised up)).filterMap (findingAt expectation whole interpolated) =
      (part.walk.filterMap (findingAt expectation part interpolated)).map (Finding.raised shift) := by
  rw [List.filterMap_map, List.map_filterMap]
  apply List.filterMap_congr
  intro visit hvisit
  obtain ⟨hne, hlt⟩ := hpart.linked.mem_map_walk_iff.1 (List.mem_map_of_mem hvisit)
  exact findingAt_embeds h hpart (Nat.pos_of_ne_zero hne) hlt expectation interpolated

end Embeds

theorem raised_zero : Finding.raised 0 = id := by
  funext finding
  simp [Finding.raised]

/-- The findings of a join are those of the first tree and then those of the second, further along. -/
theorem findings_isJoin {left right joined : Tree} {shift : Nat} (h : IsJoin left right shift joined)
    (hleft : left.HasGroups) (hright : right.HasGroups) (expectation : Expectation) (interpolated : Bool) :
    joined.walk.filterMap (findingAt expectation joined interpolated) =
      left.walk.filterMap (findingAt expectation left interpolated) ++
        (right.walk.filterMap (findingAt expectation right interpolated)).map (Finding.raised shift) := by
  have hroot := hright.root.trans hleft.root.symm
  have hfirst := filterMap_findingAt_embeds h.embeds_left hleft expectation interpolated
  have hsecond := filterMap_findingAt_embeds (h.embeds_right hroot) hright expectation interpolated
  rw [h.walk_eq hleft.linked hright.linked hleft.root hright.root, List.filterMap_append, hsecond]
  simpa [raised_zero] using hfirst

end Policy

open Selector

/-- Two selectors with a comma between them parse to the join of their trees. If the three texts agree in
whether they end in an interpolation, the findings are those of the first selector and then those of the
second, which are further along by the first one and the comma. -/
theorem parse_comma {left right : String} {leftTree rightTree : Tree}
    (hleft : parse left = .ok leftTree) (hright : parse right = .ok rightTree) :
    ∃ joined, parse (left ++ "," ++ right) = .ok joined ∧
      Tree.IsJoin leftTree rightTree (byteLength left.toList + 1) joined ∧
      ∀ interpolated, endsInInterpolation left.toList = interpolated →
        endsInInterpolation right.toList = interpolated →
        endsInInterpolation (left ++ "," ++ right).toList = interpolated →
        ∀ expectation parent,
          Policy.evaluate ⟨expectation, .each⟩ joined (left ++ "," ++ right) parent =
            Policy.evaluate ⟨expectation, .each⟩ leftTree left parent ++
              (Policy.evaluate ⟨expectation, .each⟩ rightTree right parent).map
                (Finding.raised (byteLength left.toList + 1)) := by
  obtain ⟨joined, hparse, hjoin⟩ := exists_isJoin_of_parse hleft hright
  refine ⟨joined, hparse, hjoin, ?_⟩
  intro interpolated hleftEnds hrightEnds hends expectation parent
  have hfindings := Policy.findings_isJoin hjoin (hasGroups_of_parse hleft) (hasGroups_of_parse hright)
    expectation interpolated
  simp only [Policy.evaluate, Policy.findings, hleftEnds, hrightEnds, hends]
  by_cases hnone : (expectation = .never && parent.isTopLevel) = true
  · rw [if_pos hnone, if_pos hnone, if_pos hnone]
    rfl
  · rw [if_neg hnone, if_neg hnone, if_neg hnone]
    exact hfindings

/-- A list of two groups, and a selector with arguments after it. -/
theorem parse_comma_arguments : ∃ leftTree rightTree joined,
    parse "a > b, é" = .ok leftTree ∧ parse " .d:not(p q) .e" = .ok rightTree ∧
      parse ("a > b, é" ++ "," ++ " .d:not(p q) .e") = .ok joined ∧
      Tree.IsJoin leftTree rightTree 10 joined ∧
      Policy.evaluate ⟨.always, .each⟩ joined ("a > b, é" ++ "," ++ " .d:not(p q) .e") .root =
        Policy.evaluate ⟨.always, .each⟩ leftTree "a > b, é" .root ++
          (Policy.evaluate ⟨.always, .each⟩ rightTree " .d:not(p q) .e" .root).map (Finding.raised 10) := by
  have hleft : (parse "a > b, é").isOk := by decide +kernel
  have hright : (parse " .d:not(p q) .e").isOk := by decide +kernel
  cases hleftTree : parse "a > b, é" with
  | error fault =>
    rw [hleftTree] at hleft
    cases hleft
  | ok leftTree =>
    cases hrightTree : parse " .d:not(p q) .e" with
    | error fault =>
      rw [hrightTree] at hright
      cases hright
    | ok rightTree =>
      obtain ⟨joined, hparse, hjoin, hevaluate⟩ := parse_comma hleftTree hrightTree
      exact ⟨leftTree, rightTree, joined, rfl, rfl, hparse, hjoin,
        hevaluate false (by decide +kernel) (by decide +kernel) (by decide +kernel) .always .root⟩

end SelectorLint
