import SelectorLint.Selector.Assembly
import SelectorLint.Proofs.Text.Run
import SelectorLint.Proofs.Selector.Item
import SelectorLint.Proofs.Tree.Branch

/-!
# The tree of a selector list

The branches of a list of groups, by recursion on its items: `listBranches`. White space is decided on
by looking ahead. It becomes a combinator if a component stands before it, no white space between them,
and the next item that is neither white space nor a comment is a component too (`meetsComponent`).

The assembly of a tree looks back instead: it keeps white space and the comments after it until it
knows. The main result here is that both give the same tree (`assemble_listLexemes`).
-/

namespace SelectorLint.Selector

open Text Grammar

/-- The number of bytes that lexemes take. -/
def width (lexemes : List Lexeme) : Nat := byteLength (written Lexeme.text lexemes)

@[simp] theorem width_nil : width [] = 0 := rfl

@[simp] theorem width_append (first second : List Lexeme) :
    width (first ++ second) = width first + width second := by
  simp [width]

@[simp] theorem width_cons (lexeme : Lexeme) (rest : List Lexeme) :
    width (lexeme :: rest) = byteLength lexeme.text + width rest := by
  simp [width]

/-! ## Branches of groups -/

/-- The first of the items that is neither white space nor a comment is a component. -/
def meetsComponent : List Item → Bool
  | [] => false
  | .blank _ :: rest => meetsComponent rest
  | .part piece :: rest =>
    match piece.sort with
    | .comment => meetsComponent rest
    | .combinator => false
    | .component => true
  | .call _ _ _ _ :: _ => true

/-- White space joins what is before an item of this sort to what comes next, if it does so after it. -/
def joinsAfter (joins : Bool) : Tag → Bool
  | .comment => joins
  | .combinator => false
  | .component => true

/-- The node that a part becomes. -/
def partLeaf (part : Placed Part) : Branch :=
  .leaf ⟨part.piece.kind, part.piece.value, part.offset⟩

/-- The branch of a group with these children; it is where the first of them is. -/
def groupBranch : List Branch → List Branch
  | [] => []
  | child :: rest => [.node ⟨.selector, "", child.label.offset⟩ (child :: rest)]

mutual

/-- The branches of the items of a group from `offset` on. White space is a combinator only if it
`joins`, that is, right after a component. -/
def itemBranches : Bool → Nat → List Item → List Branch
  | _, _, [] => []
  | joins, offset, .blank c :: rest =>
    (if joins && meetsComponent rest then [partLeaf ⟨offset, .descendant c⟩] else []) ++
      itemBranches false (offset + c.utf8Size) rest
  | joins, offset, .part piece :: rest =>
    partLeaf ⟨offset, piece⟩ ::
      itemBranches (joinsAfter joins piece.sort) (offset + byteLength piece.text) rest
  | _, offset, .call double name first others :: rest =>
    let inner := offset + byteLength (Lexeme.call double name).text
    .node ⟨.pseudo, (Part.pseudo double name).value, offset⟩
        (groupBranch (itemBranches false inner first) ++
          othersBranches (inner + width (groupLexemes first)) others) ::
      itemBranches true (offset + width (Item.call double name first others).lexemes) rest

/-- The branches of the groups after the first, from the comma before them on. -/
def othersBranches : Nat → List (List Item) → List Branch
  | _, [] => []
  | offset, group :: rest =>
    groupBranch (itemBranches false (offset + 1) group) ++
      othersBranches (offset + 1 + width (groupLexemes group)) rest

end

/-- The branches of a list of groups. -/
def listBranches (offset : Nat) (first : List Item) (others : List (List Item)) : List Branch :=
  groupBranch (itemBranches false offset first) ++
    othersBranches (offset + width (groupLexemes first)) others

/-- The branch of a pseudo-class with what stands in its parentheses. -/
def callBranch (offset : Nat) (double : Bool) (name : List Char) (first : List Item)
    (others : List (List Item)) : Branch :=
  .node ⟨.pseudo, (Part.pseudo double name).value, offset⟩
    (listBranches (offset + byteLength (Lexeme.call double name).text) first others)

theorem itemBranches_call (joins : Bool) (offset : Nat) (double : Bool) (name : List Char)
    (first : List Item) (others : List (List Item)) (rest : List Item) :
    itemBranches joins offset (.call double name first others :: rest) =
      callBranch offset double name first others ::
        itemBranches true (offset + width (Item.call double name first others).lexemes) rest := by
  rw [itemBranches]
  rfl

/-- White space alone gives no nodes. -/
theorem itemBranches_of_groupTags_eq_nil {items : List Item} (h : groupTags items = [])
    (offset : Nat) : itemBranches false offset items = [] := by
  induction items generalizing offset with
  | nil => rw [itemBranches]
  | cons item rest ih =>
    cases item with
    | blank c => simpa [itemBranches] using ih h _
    | part piece => simp at h
    | call double name first others => simp at h

/-! ## Runs of the assembly -/

/-- The assembly takes the lexemes, which follow each other from `offset` on, and gets to `after`. -/
abbrev Runs (before : Assembly) (offset : Nat) (lexemes : List Lexeme) (after : Assembly) : Prop :=
  Text.Runs Lexeme.text Assembly.take before offset lexemes after

/-! ## What is kept back -/

namespace Phase

/-- The branches that the assembly has kept back, if a component comes next or not. -/
def pending (component : Bool) : Phase → List Branch
  | .spaced blank comments =>
    (if component then [partLeaf ⟨blank.offset, .descendant blank.piece⟩] else []) ++
      comments.map partLeaf
  | .start | .afterCombinator | .afterComponent => []

/-- White space that comes now may become a combinator. -/
def joins : Phase → Bool
  | .afterComponent => true
  | .start | .afterCombinator | .spaced _ _ => false

/-- A combinator may not follow. -/
def isCombined : Phase → Bool
  | .afterCombinator => true
  | .start | .afterComponent | .spaced _ _ => false

end Phase

namespace Assembly

variable {assembly : Assembly} {group offset : Nat}

/-- The assembly with another tree. -/
def withTree (assembly : Assembly) (tree : Tree) : Assembly := { assembly with tree }

theorem add_eq (hgroup : assembly.level.group = some group) (part : Placed Part) :
    assembly.add part = assembly.withTree (assembly.tree.graft group (partLeaf part)) := by
  simp only [add, hgroup]
  rfl

theorem foldl_add_eq (hgroup : assembly.level.group = some group) (parts : List (Placed Part)) :
    parts.foldl add assembly =
      assembly.withTree (assembly.tree.graftAll group (parts.map partLeaf)) := by
  induction parts generalizing assembly with
  | nil => rfl
  | cons part rest ih =>
    rw [List.foldl_cons, add_eq hgroup, ih]
    · rfl
    · exact hgroup

theorem addComments_eq (hgroup : assembly.level.group = some group) :
    assembly.addComments =
      assembly.withTree (assembly.tree.graftAll group (assembly.level.phase.pending false)) := by
  unfold addComments
  cases hphase : assembly.level.phase with
  | spaced blank comments => simpa [Phase.pending] using foldl_add_eq hgroup comments
  | start | afterCombinator | afterComponent => rfl

/-- White space before a component, and the comments that waited with it. -/
theorem joinSpace_addComments_eq (hgroup : assembly.level.group = some group) :
    assembly.joinSpace.addComments =
      assembly.withTree (assembly.tree.graftAll group (assembly.level.phase.pending true)) := by
  unfold joinSpace
  cases hphase : assembly.level.phase with
  | spaced blank comments =>
    dsimp only
    rw [add_eq hgroup, addComments_eq]
    · simp only [withTree, hphase, Phase.pending]
      rfl
    · exact hgroup
  | start | afterCombinator | afterComponent =>
    dsimp only
    rw [addComments_eq hgroup, hphase]
    rfl

/-- The tree with the comments that wait added. -/
def settled (assembly : Assembly) : Tree := assembly.addComments.tree

theorem settled_eq (hgroup : assembly.level.group = some group) :
    assembly.settled = assembly.tree.graftAll group (assembly.level.phase.pending false) := by
  rw [settled, addComments_eq hgroup]
  rfl

/-- The assembly after an item whose branch has been added. The branches that were kept back come before
it; a `component` decides on them. -/
def withBranch (assembly : Assembly) (group : Nat) (component : Bool) (branch : Branch)
    (phase : Phase) : Assembly :=
  (assembly.withTree
    (assembly.tree.graftAll group (assembly.level.phase.pending component ++ [branch]))).enter phase

theorem takeComponent_eq (hgroup : assembly.level.group = some group) (part : Placed Part) :
    assembly.takeComponent part =
      assembly.withBranch group true (partLeaf part) .afterComponent := by
  rw [takeComponent, joinSpace_addComments_eq hgroup, add_eq, withBranch, Tree.graftAll_append]
  · rfl
  · exact hgroup

theorem take_component (hgroup : assembly.level.group = some group) {piece : Part}
    (hsort : piece.sort = .component) :
    assembly.take ⟨offset, .part piece⟩ =
      .ok (assembly.withBranch group true (partLeaf ⟨offset, piece⟩) .afterComponent) := by
  rw [← takeComponent_eq hgroup]
  cases piece with
  | combinator | comment => cases hsort
  | _ => rfl

theorem take_combinator (hgroup : assembly.level.group = some group) {sign : Sign}
    (hphase : assembly.level.phase.isCombined = false) :
    assembly.take ⟨offset, .part (.combinator sign)⟩ =
      .ok (assembly.withBranch group false (partLeaf ⟨offset, .combinator sign⟩)
        .afterCombinator) := by
  have hadd : (assembly.addComments.add ⟨offset, .combinator sign⟩).enter .afterCombinator =
      assembly.withBranch group false (partLeaf ⟨offset, .combinator sign⟩) .afterCombinator := by
    rw [addComments_eq hgroup, add_eq, withBranch, Tree.graftAll_append]
    · rfl
    · exact hgroup
  rw [← hadd]
  simp only [take, takeCombinator]
  cases hcase : assembly.level.phase with
  | afterCombinator =>
    rw [hcase] at hphase
    cases hphase
  | start | afterComponent | spaced => rfl

end Assembly

/-! ## One group -/

/-- From `before`, in the group that is the node `group`, the branches have been added up to `after`. -/
structure Extends (before after : Assembly) (group : Nat) (branches : List Branch) : Prop where
  settled_eq : after.settled = before.tree.graftAll group branches
  group_eq : after.level.group = some group
  parent_eq : after.level.parent = before.level.parent
  outer_eq : after.outer = before.outer

namespace Extends

variable {before after : Assembly} {group : Nat} {branches : List Branch}

/-- A branch was added first. -/
theorem of_withBranch {component : Bool} {branch : Branch} {phase : Phase}
    (h : Extends (before.withBranch group component branch phase) after group branches) :
    Extends before after group (before.level.phase.pending component ++ branch :: branches) := by
  refine ⟨?_, h.group_eq, h.parent_eq, h.outer_eq⟩
  have hassoc : before.level.phase.pending component ++ branch :: branches =
      before.level.phase.pending component ++ [branch] ++ branches := by simp
  rw [h.settled_eq, hassoc, Tree.graftAll_append _ _ _ branches]
  rfl

end Extends

/-- A pseudo-class with parentheses is taken like any component. -/
def RunsCall (item : Item) : Prop :=
  ∀ double name first others, item = .call double name first others →
    ∀ (before : Assembly) (offset group : Nat), before.level.group = some group →
      Runs before offset item.lexemes
        (before.withBranch group true (callBranch offset double name first others) .afterComponent)

section Items

variable {items : List Item} {before : Assembly} {offset group : Nat}

/-- In a group, whatever came before them in it, the items can be read if their tags fit there. Then their branches
are added to the group. -/
def RunsItems (items : List Item) : Prop :=
  ∀ (before : Assembly) (offset group : Nat), before.level.group = some group →
    fits before.level.phase.isCombined (groupTags items) →
      ∃ after, Runs before offset (groupLexemes items) after ∧
        Extends before after group (before.level.phase.pending (meetsComponent items) ++
          itemBranches before.level.phase.joins offset items)

theorem runsItems_nil : RunsItems [] := by
  intro before offset group hgroup _
  refine ⟨before, .nil _ _, ?_, hgroup, rfl, rfl⟩
  rw [Assembly.settled_eq hgroup, meetsComponent, itemBranches, List.append_nil]

theorem runsItems_blank {c : Char} {rest : List Item} (ih : RunsItems rest) :
    RunsItems (.blank c :: rest) := by
  intro before offset group hgroup hfits
  have hbytes : byteLength (Lexeme.blank c).text = c.utf8Size := by simp [Lexeme.text]
  have htake : before.take ⟨offset, .blank c⟩ = .ok (before.takeBlank ⟨offset, c⟩) := rfl
  rw [itemBranches, meetsComponent]
  unfold Assembly.takeBlank at htake
  cases hphase : before.level.phase with
  | afterComponent =>
    rw [hphase] at htake hfits
    obtain ⟨after, hruns, hextends⟩ :=
      ih (before.enter (.spaced ⟨offset, c⟩ [])) (offset + c.utf8Size) group hgroup hfits
    refine ⟨after, .cons htake (by rwa [hbytes]), ?_, hextends.group_eq, hextends.parent_eq,
      hextends.outer_eq⟩
    rw [hextends.settled_eq]
    simp [Assembly.enter, Phase.pending, Phase.joins]
  | start | afterCombinator | spaced =>
    rw [hphase] at htake
    obtain ⟨after, hruns, hextends⟩ := ih before (offset + c.utf8Size) group hgroup hfits
    refine ⟨after, .cons htake (by rwa [hbytes]), ?_⟩
    rw [hphase] at hextends
    exact hextends

theorem runsItems_comment {tail : List Char} {rest : List Item} (ih : RunsItems rest) :
    RunsItems (.part (.comment tail) :: rest) := by
  intro before offset group hgroup hfits
  have htake : before.take ⟨offset, .part (.comment tail)⟩ =
      .ok (before.takeComment ⟨offset, .comment tail⟩) := rfl
  have hmeets : meetsComponent (.part (.comment tail) :: rest) = meetsComponent rest := by
    rw [meetsComponent]
    rfl
  rw [itemBranches, hmeets]
  unfold Assembly.takeComment at htake
  cases hphase : before.level.phase with
  | spaced blank comments =>
    rw [hphase] at htake hfits
    obtain ⟨after, hruns, hextends⟩ :=
      ih (before.enter (.spaced blank (comments ++ [⟨offset, .comment tail⟩]))) _ group hgroup hfits
    refine ⟨after, .cons htake hruns, ?_, hextends.group_eq, hextends.parent_eq,
      hextends.outer_eq⟩
    rw [hextends.settled_eq]
    simp only [Assembly.enter, Phase.pending, List.map_append, List.append_assoc]
    rfl
  | start | afterCombinator | afterComponent =>
    rw [hphase] at htake
    dsimp only at htake
    rw [Assembly.add_eq hgroup] at htake
    obtain ⟨after, hruns, hextends⟩ :=
      ih (before.withTree (before.tree.graft group (partLeaf ⟨offset, .comment tail⟩)))
        (offset + byteLength (Part.comment tail).text) group hgroup hfits
    refine ⟨after, .cons htake hruns, ?_, hextends.group_eq, hextends.parent_eq,
      hextends.outer_eq⟩
    rw [hextends.settled_eq]
    simp only [Assembly.withTree, hphase]
    rfl

theorem runsItems_combinator {sign : Sign} {rest : List Item} (ih : RunsItems rest) :
    RunsItems (.part (.combinator sign) :: rest) := by
  intro before offset group hgroup hfits
  rw [groupTags_part, Part.sort, fits, Bool.and_eq_true, Bool.not_eq_true'] at hfits
  obtain ⟨after, hruns, hextends⟩ := ih
    (before.withBranch group false (partLeaf ⟨offset, .combinator sign⟩) .afterCombinator) _ group
    hgroup hfits.2
  refine ⟨after, .cons (Assembly.take_combinator hgroup hfits.1) hruns, ?_⟩
  rw [itemBranches, meetsComponent]
  exact hextends.of_withBranch

theorem runsItems_component {piece : Part} {rest : List Item} (hsort : piece.sort = .component)
    (ih : RunsItems rest) : RunsItems (.part piece :: rest) := by
  intro before offset group hgroup hfits
  rw [groupTags_part, hsort, fits] at hfits
  obtain ⟨after, hruns, hextends⟩ := ih
    (before.withBranch group true (partLeaf ⟨offset, piece⟩) .afterComponent) _ group hgroup hfits
  refine ⟨after, .cons (Assembly.take_component hgroup hsort) hruns, ?_⟩
  rw [itemBranches, meetsComponent]
  simp only [hsort]
  exact hextends.of_withBranch

theorem runsItems_call {double : Bool} {name : List Char} {first : List Item}
    {others : List (List Item)} {rest : List Item}
    (hcall : RunsCall (.call double name first others)) (ih : RunsItems rest) :
    RunsItems (.call double name first others :: rest) := by
  intro before offset group hgroup hfits
  rw [groupTags_call, fits] at hfits
  obtain ⟨after, hruns, hextends⟩ := ih
    (before.withBranch group true (callBranch offset double name first others) .afterComponent) _
    group hgroup hfits
  rw [groupLexemes, itemBranches_call, meetsComponent]
  exact ⟨after, .append (hcall double name first others rfl before offset group hgroup) hruns,
    hextends.of_withBranch⟩

/-- The items of a group that has its node are taken, and their branches are added to it. -/
theorem runsItems_of_runsCall (hitems : ∀ item ∈ items, RunsCall item) : RunsItems items := by
  induction items with
  | nil => exact runsItems_nil
  | cons item rest ih =>
    obtain ⟨hitem, hrest⟩ := List.forall_mem_cons.1 hitems
    cases item with
    | blank c => exact runsItems_blank (ih hrest)
    | part piece =>
      cases piece with
      | comment tail => exact runsItems_comment (ih hrest)
      | combinator sign => exact runsItems_combinator (ih hrest)
      | _ => exact runsItems_component rfl (ih hrest)
    | call double name first others => exact runsItems_call hitem (ih hrest)

end Items

/-! ## A group from its start -/

/-- The assembly with a node for the group that is being read. -/
def Assembly.opened (assembly : Assembly) (offset : Nat) : Assembly :=
  { assembly with
    tree := assembly.tree.append assembly.level.parent .selector "" offset
    level := { assembly.level with group := some assembly.tree.size } }

/-- The first item of a group is taken as if the group had its node already. -/
theorem runs_of_runs_opened {before after : Assembly} {parent offset : Nat} {lexeme : Lexeme}
    {rest : List Lexeme} (hlevel : before.level = .new parent)
    (hlexeme : (∃ piece, lexeme = .part piece) ∨ ∃ double name, lexeme = .call double name)
    (h : Runs (before.opened offset) offset (lexeme :: rest) after) :
    Runs before offset (lexeme :: rest) after := by
  obtain ⟨tree, level, outer⟩ := before
  obtain rfl : level = .new parent := hlevel
  have htake : Assembly.take ⟨tree, .new parent, outer⟩ ⟨offset, lexeme⟩ =
      (Assembly.opened ⟨tree, .new parent, outer⟩ offset).take ⟨offset, lexeme⟩ := by
    rcases hlexeme with ⟨piece, rfl⟩ | ⟨double, name, rfl⟩
    · cases piece <;> rfl
    · rfl
  obtain ⟨middle, hstep, hrest⟩ := h.exists_of_cons
  exact .cons (htake.trans hstep) hrest

/-- The branch of the first item of a group is at the start of the group. -/
theorem itemBranches_of_sort {item : Item} {tag : Tag} (hsort : item.sort? = some tag)
    (joins : Bool) (offset : Nat) (rest : List Item) :
    ∃ branch branches, itemBranches joins offset (item :: rest) = branch :: branches ∧
      branch.label.offset = offset := by
  cases item with
  | blank c => cases hsort
  | part piece => exact ⟨_, _, by rw [itemBranches], rfl⟩
  | call double name first others => exact ⟨_, _, by rw [itemBranches_call], rfl⟩

/-- From `before`, where a list of groups under `parent` begins, the branches of whole groups have been
added up to `after`, where the last of them may end. -/
structure Completes (before after : Assembly) (parent : Nat) (branches : List Branch) : Prop where
  settled_eq : after.settled = before.tree.graftAll parent branches
  group_eq : ∃ group, after.level.group = some group
  parent_eq : after.level.parent = parent
  outer_eq : after.outer = before.outer

theorem Completes.endGroup {before after : Assembly} {parent : Nat} {branches : List Branch}
    (h : Completes before after parent branches) (offset : Nat) :
    after.endGroup offset =
      .ok ⟨before.tree.graftAll parent branches, .new parent, before.outer⟩ := by
  obtain ⟨group, hgroup⟩ := h.group_eq
  have hsettled : after.settled = after.addComments.tree := rfl
  have houter : after.addComments.outer = after.outer := by
    rw [Assembly.addComments_eq hgroup]
    rfl
  simp only [Assembly.endGroup, hgroup]
  rw [← hsettled, houter, h.settled_eq, h.parent_eq, h.outer_eq]

section Groups

variable {parent : Nat}

/-- A group whose first item is not white space. -/
theorem exists_runs_group_cons {item : Item} {rest : List Item} {tag : Tag}
    (hsort : item.sort? = some tag) (hitems : RunsItems (item :: rest))
    (hfits : fits false (groupTags (item :: rest))) {before : Assembly}
    (hlevel : before.level = .new parent) (offset : Nat) :
    ∃ after, Runs before offset (groupLexemes (item :: rest)) after ∧
      Completes before after parent (groupBranch (itemBranches false offset (item :: rest))) := by
  have hphase : (before.opened offset).level.phase = .start := by
    rw [Assembly.opened, hlevel]
    rfl
  obtain ⟨after, hruns, hextends⟩ :=
    hitems (before.opened offset) offset before.tree.size rfl (by rw [hphase]; exact hfits)
  rw [hphase] at hextends
  obtain ⟨branch, branches, hbranches, hoffset⟩ := itemBranches_of_sort hsort false offset rest
  refine ⟨after, ?_, ?_, ⟨_, hextends.group_eq⟩, ?_, hextends.outer_eq⟩
  · rw [groupLexemes] at hruns ⊢
    cases item with
    | blank c => cases hsort
    | part piece => exact runs_of_runs_opened hlevel (.inl ⟨piece, rfl⟩) hruns
    | call double name first others =>
      rw [Item.lexemes] at hruns ⊢
      exact runs_of_runs_opened hlevel (.inr ⟨double, name, rfl⟩) hruns
  · have hopened : (before.opened offset).tree = before.tree.append parent .selector "" offset := by
      rw [Assembly.opened, hlevel]
      rfl
    rw [hextends.settled_eq, hopened]
    simp only [Phase.joins, Phase.pending, List.nil_append]
    rw [hbranches, groupBranch, hoffset]
    rfl
  · rw [hextends.parent_eq, Assembly.opened, hlevel]
    rfl

/-- A group is taken from its start on. -/
theorem exists_runs_group {items : List Item} (hitems : ∀ item ∈ items, RunsCall item)
    (hgroup : GroupFits items) {before : Assembly} (hlevel : before.level = .new parent)
    (offset : Nat) :
    ∃ after, Runs before offset (groupLexemes items) after ∧
      Completes before after parent (groupBranch (itemBranches false offset items)) := by
  induction items generalizing offset with
  | nil => exact absurd rfl hgroup.ne_nil
  | cons item rest ih =>
    cases item with
    | blank c =>
      have htake : before.take ⟨offset, .blank c⟩ = .ok before := by
        obtain ⟨tree, level, outer⟩ := before
        obtain rfl : level = .new parent := hlevel
        rfl
      obtain ⟨after, hruns, hcompletes⟩ := ih (fun item hitem => hitems item (by simp [hitem]))
        ⟨hgroup.ne_nil, hgroup.fits⟩ (offset + c.utf8Size)
      have hbytes : byteLength (Lexeme.blank c).text = c.utf8Size := by simp [Lexeme.text]
      rw [itemBranches]
      exact ⟨after, .cons htake (by rwa [hbytes]), hcompletes⟩
    | part piece =>
      exact exists_runs_group_cons rfl (runsItems_of_runsCall hitems) hgroup.fits hlevel offset
    | call double name first others =>
      exact exists_runs_group_cons rfl (runsItems_of_runsCall hitems) hgroup.fits hlevel offset

/-- The groups after the first are taken one after the other. -/
theorem exists_runs_others {others : List (List Item)}
    (hitems : ∀ group ∈ others, ∀ item ∈ group, RunsCall item)
    (hfits : ∀ group ∈ others, GroupFits group) {start before : Assembly}
    {branches : List Branch} (hstart : Completes start before parent branches) (offset : Nat) :
    ∃ after, Runs before offset (othersLexemes others) after ∧
      Completes start after parent (branches ++ othersBranches offset others) := by
  induction others generalizing before branches offset with
  | nil =>
    refine ⟨before, .nil _ _, ?_⟩
    rw [othersBranches, List.append_nil]
    exact hstart
  | cons group rest ih =>
    obtain ⟨hgroupItems, hrestItems⟩ := List.forall_mem_cons.1 hitems
    obtain ⟨hgroupFits, hrestFits⟩ := List.forall_mem_cons.1 hfits
    let next : Assembly := ⟨start.tree.graftAll parent branches, .new parent, start.outer⟩
    have htake : before.take ⟨offset, .comma⟩ = .ok next := hstart.endGroup offset
    obtain ⟨middle, hruns, hmiddle⟩ := exists_runs_group hgroupItems hgroupFits
      (show next.level = .new parent from rfl) (offset + 1)
    have hcompletes : Completes start middle parent
        (branches ++ groupBranch (itemBranches false (offset + 1) group)) := by
      refine ⟨?_, hmiddle.group_eq, hmiddle.parent_eq, hmiddle.outer_eq⟩
      rw [hmiddle.settled_eq, Tree.graftAll_append]
    obtain ⟨after, hrunsRest, hafter⟩ :=
      ih hrestItems hrestFits hcompletes (offset + 1 + width (groupLexemes group))
    refine ⟨after, .cons htake (.append hruns hrunsRest), ?_⟩
    rw [othersBranches, ← List.append_assoc]
    exact hafter

/-- A list of groups is taken, and its branches are added. -/
theorem exists_runs_list {first : List Item} {others : List (List Item)}
    (hitems : ∀ group ∈ first :: others, ∀ item ∈ group, RunsCall item)
    (hfits : ∀ group ∈ first :: others, GroupFits group) {before : Assembly}
    (hlevel : before.level = .new parent) (offset : Nat) :
    ∃ after, Runs before offset (listLexemes first others) after ∧
      Completes before after parent (listBranches offset first others) := by
  obtain ⟨hfirstItems, hothersItems⟩ := List.forall_mem_cons.1 hitems
  obtain ⟨hfirstFits, hothersFits⟩ := List.forall_mem_cons.1 hfits
  obtain ⟨middle, hruns, hmiddle⟩ := exists_runs_group hfirstItems hfirstFits hlevel offset
  obtain ⟨after, hrunsOthers, hafter⟩ :=
    exists_runs_others hothersItems hothersFits hmiddle (offset + width (groupLexemes first))
  exact ⟨after, .append hruns hrunsOthers, hafter⟩

end Groups

/-! ## Parentheses and whole selectors -/

/-- White space before the first item of a list is passed over. -/
theorem runs_of_groupTags_eq_nil {items : List Item} (hnone : groupTags items = [])
    {before : Assembly} {parent : Nat} (hlevel : before.level = .new parent) (offset : Nat) :
    Runs before offset (groupLexemes items) before := by
  induction items generalizing offset with
  | nil => exact .nil _ _
  | cons item rest ih =>
    cases item with
    | blank c =>
      have htake : before.take ⟨offset, .blank c⟩ = .ok before := by
        obtain ⟨tree, level, outer⟩ := before
        obtain rfl : level = .new parent := hlevel
        rfl
      exact .cons htake (ih hnone _)
    | part piece => simp at hnone
    | call double name first others => simp at hnone

section Call

variable (before : Assembly) (offset group : Nat) (double : Bool) (name : List Char)

/-- The assembly between a parenthesis that opens and the arguments. -/
def Assembly.inCall : Assembly :=
  let tree := before.tree.graftAll group (before.level.phase.pending true)
  { tree := tree.append group .pseudo (Part.pseudo double name).value offset
    level := .new tree.size
    outer := ⟨{ before.level with phase := .afterComponent },
      offset + byteLength (Part.pseudo double name).text⟩ :: before.outer }

variable {before offset group double name}

theorem take_call (hgroup : before.level.group = some group) :
    before.take ⟨offset, .call double name⟩ = .ok (before.inCall offset group double name) := by
  have hopen : before.take ⟨offset, .call double name⟩ =
      .ok (before.openArguments offset double name) := rfl
  have htree : (before.withBranch group true (partLeaf ⟨offset, .pseudo double name⟩)
      .afterComponent).tree = (before.inCall offset group double name).tree := by
    rw [Assembly.withBranch, Tree.graftAll_append]
    rfl
  have hsize : (before.inCall offset group double name).tree.size - 1 =
      (before.tree.graftAll group (before.level.phase.pending true)).size := by
    rw [Assembly.inCall, Tree.size_append, Nat.add_sub_cancel]
  rw [hopen, Assembly.openArguments, Assembly.takeComponent_eq hgroup]
  simp only [htree, hsize]
  rfl

theorem withBranch_callBranch {first : List Item} {others : List (List Item)} :
    before.withBranch group true (callBranch offset double name first others) .afterComponent =
      { before with
        tree := (before.inCall offset group double name).tree.graftAll
          (before.tree.graftAll group (before.level.phase.pending true)).size
          (listBranches (offset + byteLength (Lexeme.call double name).text) first others)
        level := { before.level with phase := .afterComponent } } := by
  rw [Assembly.withBranch, Tree.graftAll_append]
  rfl

theorem runsCall_of_groupTags_eq_nil {first : List Item} (hnone : groupTags first = []) :
    RunsCall (.call double name first []) := by
  intro double name first others heq before offset group hgroup
  cases heq
  have hbranches : ∀ inner, listBranches inner first [] = [] := by
    intro inner
    rw [listBranches, itemBranches_of_groupTags_eq_nil hnone, groupBranch, othersBranches]
    rfl
  have hempty : ((before.inCall offset group double name).tree.children
      (before.tree.graftAll group (before.level.phase.pending true)).size).isEmpty := by
    rw [Assembly.inCall, Tree.children_append_self]
    rfl
  rw [Item.lexemes, othersLexemes, List.append_nil, withBranch_callBranch, hbranches]
  refine .cons (take_call hgroup) (.append (runs_of_groupTags_eq_nil hnone rfl _) (.single ?_))
  simp only [Assembly.take, Assembly.closeArguments]
  rw [Assembly.inCall] at hempty ⊢
  simp only [Level.new, hempty]
  rfl

theorem runsCall_of_fits {first : List Item} {others : List (List Item)}
    (hfits : ∀ group ∈ first :: others, GroupFits group)
    (hitems : ∀ group ∈ first :: others, ∀ item ∈ group, RunsCall item) :
    RunsCall (.call double name first others) := by
  intro double name first others heq before offset group hgroup
  cases heq
  obtain ⟨after, hruns, hcompletes⟩ := exists_runs_list hitems hfits
    (show (before.inCall offset group double name).level = .new _ from rfl)
    (offset + byteLength (Lexeme.call double name).text)
  rw [Item.lexemes, withBranch_callBranch]
  refine .cons (take_call hgroup) (.append hruns (.single ?_))
  obtain ⟨last, hlast⟩ := hcompletes.group_eq
  simp only [Assembly.take, Assembly.closeArguments, hcompletes.outer_eq, hlast,
    hcompletes.endGroup]
  rfl

end Call

/-- Every item of a selector that is a pseudo-class with parentheses is taken like any component. -/
theorem runsCall_of_valid {item : Item} (h : item.Valid) : RunsCall item := by
  induction h with
  | blank | part =>
    intro double name first others heq
    cases heq
  | emptyCall _ hnone _ _ => exact runsCall_of_groupTags_eq_nil hnone
  | call _ hfits _ ih => exact runsCall_of_fits hfits ih

/-- The lexemes of a selector list make a tree of the branches of that list. -/
theorem assemble_listLexemes {first : List Item} {others : List (List Item)}
    (h : ValidList first others) :
    assemble ⟨listLexemes first others, none⟩ =
      .ok (Tree.empty.graftAll 0 (listBranches 0 first others)) := by
  obtain ⟨after, hruns, hcompletes⟩ := exists_runs_list
    (fun group hgroup item hitem => runsCall_of_valid (h.items group hgroup item hitem)) h.fits
    (show Assembly.new.level = .new 0 from rfl) 0
  unfold Runs Text.Runs at hruns
  simp only [assemble, hruns, Assembly.finish, bind, Except.bind, hcompletes.endGroup]
  rfl

end SelectorLint.Selector
