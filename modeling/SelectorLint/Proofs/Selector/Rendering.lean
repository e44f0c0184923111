import SelectorLint.Proofs.Selector.Groups
import SelectorLint.Proofs.Tree.Relocation

/-!
# Selectors written out again

The text of a tree (`Tree.render`): groups with a comma and a space between them, signs with a space on both
sides, and arguments in parentheses where a pseudo-class has any.
-/

namespace SelectorLint.Selector

open Text Grammar Branch

/-! ## The text of a tree -/

/-- How groups are written, each with its own text. -/
def groupsText : List (List Char) → List Char
  | [] => []
  | first :: others => first ++ others.flatMap fun group => ',' :: ' ' :: group

/-- How a node of a group is written that has these arguments. -/
def Label.render (label : Label) (arguments : List (List Char)) : List Char :=
  match label.kind with
  | .className => '.' :: label.value.toList
  | .id => '#' :: label.value.toList
  | .attr => '[' :: label.value.toList ++ [']']
  | .combinator => if label.value = " " then [' '] else ' ' :: label.value.toList ++ [' ']
  | .pseudo =>
    label.value.toList ++ if arguments = [] then [] else '(' :: groupsText arguments ++ [')']
  | .comment | .nesting | .root | .selector | .string | .tag | .universal => label.value.toList

namespace Tree

/-- The text of a group. -/
def renderGroup (tree : Tree) (group : Nat) : List Char :=
  (tree.children group).toList.attach.flatMap fun ⟨child, _⟩ =>
    (tree.label? child).elim [] fun label =>
      label.render <| (tree.children child).toList.attach.map fun ⟨argument, _⟩ =>
        tree.renderGroup argument
termination_by tree.size - group
decreasing_by
  rename_i hchild hargument
  have := lt_of_mem_children (Array.mem_toList_iff.1 hchild)
  have := lt_of_mem_children (Array.mem_toList_iff.1 hargument)
  omega

/-- The text of a tree. -/
def render (tree : Tree) : String :=
  String.ofList (groupsText (tree.groups.toList.map tree.renderGroup))

/-- No pseudo-class without arguments stands right before a tag. The parentheses of the arguments would have
been all that kept their words apart. -/
def Renderable (tree : Tree) : Prop :=
  ∀ id next, tree.kind? id = some .pseudo → tree.children id = #[] → tree.next? id = some next →
    tree.kind? next ≠ some .tag

instance (tree : Tree) : Decidable tree.Renderable :=
  decidable_of_iff (∀ id < tree.size, tree.kind? id = some .pseudo → tree.children id = #[] →
      ∀ next ∈ tree.next? id, tree.kind? next ≠ some .tag) <| by
    constructor
    · intro h id next hkind hnone hnext
      obtain ⟨node, hnode, -⟩ := Option.map_eq_some_iff.1 hkind
      exact h id (lt_of_getElem? hnode) hkind hnone next hnext
    · intro h id _ hkind hnone next hnext
      exact h id next hkind hnone hnext

/-- The text of a node in a group. -/
def renderNode (tree : Tree) (id : Nat) : List Char :=
  (tree.label? id).elim [] fun label => label.render ((tree.children id).toList.map tree.renderGroup)

theorem renderGroup_eq (tree : Tree) (group : Nat) :
    tree.renderGroup group = (tree.children group).toList.flatMap tree.renderNode := by
  rw [renderGroup]
  simp only [List.map_subtype, List.unattach_attach, List.flatMap_subtype]
  rfl

end Tree

/-! ## The text of branches -/

namespace Branch

mutual

/-- The text of a branch in a group. -/
def text : Branch → List Char
  | node label children => label.render (groupTexts children)

/-- The text of a branch that is a group. -/
def groupText : Branch → List Char
  | node _ children => textAll children

/-- The texts of branches in a group, one after the other. -/
def textAll : List Branch → List Char
  | [] => []
  | branch :: rest => branch.text ++ textAll rest

/-- The texts of branches that are groups. -/
def groupTexts : List Branch → List (List Char)
  | [] => []
  | branch :: rest => branch.groupText :: groupTexts rest

end

theorem textAll_append (first second : List Branch) :
    textAll (first ++ second) = textAll first ++ textAll second := by
  induction first with
  | nil => rfl
  | cons branch rest ih => rw [List.cons_append, textAll, textAll, ih, List.append_assoc]

theorem groupTexts_append (first second : List Branch) :
    groupTexts (first ++ second) = groupTexts first ++ groupTexts second := by
  induction first with
  | nil => rfl
  | cons branch rest ih => rw [List.cons_append, groupTexts, groupTexts, ih, List.cons_append]

end Branch

namespace Tree

variable {tree : Tree}

mutual

theorem renderNode_of_holds {parent position id : Nat} : ∀ {branch : Branch},
    branch.Holds tree parent position id → tree.renderNode id = branch.text
  | .node label children, h => by
    rw [renderNode, label?_of_holds h, children_of_holds h, map_renderGroup_of_holdAll h.2]
    rfl

theorem renderGroup_of_holds {parent position id : Nat} : ∀ {branch : Branch},
    branch.Holds tree parent position id → tree.renderGroup id = branch.groupText
  | .node label children, h => by
    rw [renderGroup_eq, children_of_holds h, flatMap_renderNode_of_holdAll h.2, groupText]

theorem flatMap_renderNode_of_holdAll {parent position start : Nat} : ∀ {branches : List Branch},
    HoldAll tree parent position start branches →
      (starts start branches).flatMap tree.renderNode = textAll branches
  | [], _ => rfl
  | branch :: rest, h => by
    rw [starts, List.flatMap_cons, renderNode_of_holds h.1, flatMap_renderNode_of_holdAll h.2, textAll]

theorem map_renderGroup_of_holdAll {parent position start : Nat} : ∀ {branches : List Branch},
    HoldAll tree parent position start branches →
      (starts start branches).map tree.renderGroup = groupTexts branches
  | [], _ => rfl
  | branch :: rest, h => by
    rw [starts, List.map_cons, renderGroup_of_holds h.1, map_renderGroup_of_holdAll h.2, groupTexts]

end

theorem render_graftAll (branches : List Branch) :
    (Tree.empty.graftAll 0 branches).render = String.ofList (groupsText (groupTexts branches)) := by
  have hgrown := grown_graftAll (show 0 < Tree.empty.size by simp) branches
  rw [render, groups, children_zero_graftAll]
  exact congrArg (fun texts => String.ofList (groupsText texts)) (map_renderGroup_of_holdAll hgrown.holds)

end Tree

/-! ## Items as they are written out -/

/-- The items that a part is written out as. -/
def Part.rewritten : Part → List Item
  | .combinator sign => [.blank ' ', .part (.combinator sign), .blank ' ']
  | .attr body => [.part (.attr (trim body))]
  | piece => [.part piece]

mutual

/-- The items that the items of a group are written out as. White space stays where it is a combinator, and
empty parentheses go. -/
def rewritten : Bool → List Item → List Item
  | _, [] => []
  | joins, .blank _ :: rest =>
    (if joins && meetsComponent rest then [.blank ' '] else []) ++ rewritten false rest
  | joins, .part piece :: rest => piece.rewritten ++ rewritten (joinsAfter joins piece.sort) rest
  | _, .call double name first others :: rest =>
    (if groupTags first = [] then .part (.pseudo double name)
      else .call double name (rewritten false first) (rewrittenOthers others)) :: rewritten true rest

/-- The groups after the first, each with a space in front. -/
def rewrittenOthers : List (List Item) → List (List Item)
  | [] => []
  | group :: rest => (.blank ' ' :: rewritten false group) :: rewrittenOthers rest

end

/-- The sorts of the items stay. -/
theorem groupTags_rewritten (items : List Item) (joins : Bool) :
    groupTags (rewritten joins items) = groupTags items := by
  have happend : ∀ front back, groupTags (front ++ back) = groupTags front ++ groupTags back := fun _ _ =>
    List.filterMap_append
  induction items generalizing joins with
  | nil => rw [rewritten]
  | cons item rest ih =>
    cases item with
    | blank c =>
      rw [rewritten, happend, ih]
      split
      all_goals rfl
    | part piece =>
      rw [rewritten, happend, ih]
      cases piece <;> rfl
    | call double name first others =>
      rw [rewritten, groupTags_call]
      split
      · rw [groupTags_part, ih]
        rfl
      · rw [groupTags_call, ih]

theorem meetsComponent_rewritten (items : List Item) (joins : Bool) :
    meetsComponent (rewritten joins items) = meetsComponent items := by
  induction items generalizing joins with
  | nil => rw [rewritten]
  | cons item rest ih =>
    cases item with
    | blank c =>
      rw [rewritten, meetsComponent]
      split
      · rw [List.singleton_append, meetsComponent, ih]
      · rw [List.nil_append, ih]
    | part piece =>
      rw [rewritten]
      cases piece with
      | comment tail =>
        rw [Part.rewritten, List.singleton_append]
        · simp only [meetsComponent, Part.sort, ih]
        all_goals simp
      | _ => rfl
    | call double name first others =>
      rw [rewritten]
      split
      all_goals rfl

/-! ## The text of items -/

/-- What stands in the parentheses of a pseudo-class: nothing, or groups. -/
theorem Item.Valid.of_call {double : Bool} {name : List Char} {first : List Item}
    {others : List (List Item)} (h : (Item.call double name first others).Valid) :
    Word name ∧ (groupTags first = [] ∧ others = [] ∨ ∀ group ∈ first :: others, GroupFits group) ∧
      ∀ group ∈ first :: others, ∀ item ∈ group, item.Valid := by
  cases h with
  | emptyCall hname hnone hitems => exact ⟨hname, .inl ⟨hnone, rfl⟩, by simpa using hitems⟩
  | call hname hfits hitems => exact ⟨hname, .inr hfits, hitems⟩

theorem listBranches_of_groupTags_eq_nil {first : List Item} (h : groupTags first = []) (offset : Nat) :
    listBranches offset first [] = [] := by
  rw [listBranches, itemBranches_of_groupTags_eq_nil h, othersBranches]
  rfl

/-- A part is written out as its items are. -/
theorem render_part {piece : Part} (h : piece.WellFormed) (offset : Nat) :
    Label.render ⟨piece.kind, piece.value, offset⟩ [] = written Lexeme.text (groupLexemes piece.rewritten) := by
  cases piece with
  | descendant => exact h.elim
  | combinator sign =>
    have hne : String.ofList sign.text ≠ " " := by cases sign <;> decide
    simp [Label.render, Part.kind, hne, Part.value, Part.rewritten, groupLexemes, Item.lexemes, Lexeme.text,
      Part.text]
  | _ =>
    simp [Label.render, Part.kind, Part.value, Part.rewritten, groupLexemes, Item.lexemes, Lexeme.text,
      Part.text]

theorem groupTexts_groupBranch {branches : List Branch} (h : branches ≠ []) :
    groupTexts (groupBranch branches) = [textAll branches] := by
  cases branches with
  | nil => exact absurd rfl h
  | cons child rest => rfl

theorem text_partLeaf (part : Placed Part) :
    (partLeaf part).text = Label.render ⟨part.piece.kind, part.piece.value, part.offset⟩ [] := rfl

theorem groupsText_cons (first : List Char) (others : List (List Char)) :
    groupsText (first :: others) = first ++ others.flatMap fun group => ',' :: ' ' :: group := rfl

/-- A pseudo-class with groups as its arguments. -/
theorem render_pseudo (value : String) (offset : Nat) (first : List Char) (others : List (List Char)) :
    Label.render ⟨.pseudo, value, offset⟩ (first :: others) =
      value.toList ++ '(' :: groupsText (first :: others) ++ [')'] := by
  simp [Label.render]

mutual

/-- The text of the branches of items is that of the items they are written out as. -/
theorem textAll_itemBranches : ∀ (items : List Item) (joins : Bool) (offset : Nat),
    (∀ item ∈ items, item.Valid) →
      textAll (itemBranches joins offset items) = written Lexeme.text (groupLexemes (rewritten joins items))
  | [], _, _, _ => by
    rw [itemBranches, rewritten]
    rfl
  | .blank c :: rest, joins, offset, hvalid => by
    have hrest := textAll_itemBranches rest false (offset + c.utf8Size) (List.forall_mem_cons.1 hvalid).2
    rw [itemBranches, rewritten, textAll_append, hrest]
    split
    all_goals rfl
  | .part piece :: rest, joins, offset, hvalid => by
    obtain ⟨hpiece, hvalid⟩ := List.forall_mem_cons.1 hvalid
    have hrest := textAll_itemBranches rest (joinsAfter joins piece.sort)
      (offset + byteLength piece.text) hvalid
    rw [itemBranches, rewritten, textAll, text_partLeaf, render_part (wellFormed_of_valid hpiece), hrest,
      groupLexemes_append, written_append]
  | .call double name first others :: rest, joins, offset, hvalid => by
    obtain ⟨hcall, hvalid⟩ := List.forall_mem_cons.1 hvalid
    obtain ⟨-, hgroups, hitems⟩ := hcall.of_call
    have hrest := textAll_itemBranches rest true
      (offset + width (Item.call double name first others).lexemes) hvalid
    rw [itemBranches_call, rewritten, textAll, hrest, groupLexemes, written_append]
    congr 1
    rcases hgroups with ⟨hnone, rfl⟩ | hfits
    · rw [if_pos hnone, callBranch, listBranches_of_groupTags_eq_nil hnone]
      simp [Branch.text, groupTexts, Label.render, Item.lexemes, Lexeme.text, Part.value]
    · obtain ⟨hfirst, hothers⟩ := List.forall_mem_cons.1 hfits
      obtain ⟨hfirstItems, hothersItems⟩ := List.forall_mem_cons.1 hitems
      have hinner := textAll_itemBranches first false
        (offset + byteLength (Lexeme.call double name).text) hfirstItems
      have hafter := groupTexts_othersBranches others
        (offset + byteLength (Lexeme.call double name).text + width (groupLexemes first)) hothers hothersItems
      rw [if_neg hfirst.ne_nil, callBranch, Branch.text, listBranches, groupTexts_append,
        groupTexts_groupBranch (itemBranches_ne_nil hfirst.ne_nil _), hinner, List.singleton_append,
        render_pseudo, groupsText_cons, hafter]
      simp [Item.lexemes, Lexeme.text, Part.value]

theorem groupTexts_othersBranches : ∀ (others : List (List Item)) (offset : Nat),
    (∀ group ∈ others, GroupFits group) → (∀ group ∈ others, ∀ item ∈ group, item.Valid) →
      ((groupTexts (othersBranches offset others)).flatMap fun group => ',' :: ' ' :: group) =
        written Lexeme.text (othersLexemes (rewrittenOthers others))
  | [], _, _, _ => by
    rw [othersBranches, rewrittenOthers]
    rfl
  | group :: rest, offset, hfits, hvalid => by
    obtain ⟨hgroup, hfits⟩ := List.forall_mem_cons.1 hfits
    obtain ⟨hitems, hvalid⟩ := List.forall_mem_cons.1 hvalid
    have hfirst := textAll_itemBranches group false (offset + 1) hitems
    have hrest := groupTexts_othersBranches rest (offset + 1 + width (groupLexemes group)) hfits hvalid
    rw [othersBranches, rewrittenOthers, groupTexts_append,
      groupTexts_groupBranch (itemBranches_ne_nil hgroup.ne_nil _), hfirst]
    simp [hrest, othersLexemes, groupLexemes, Item.lexemes, Lexeme.text]

end

/-- The text of a tree is that of the list it is written out as. -/
theorem render_eq {first : List Item} {others : List (List Item)} (h : ValidList first others) :
    (Tree.empty.graftAll 0 (listBranches 0 first others)).render =
      String.ofList (written Lexeme.text (listLexemes (rewritten false first) (rewrittenOthers others))) := by
  obtain ⟨hfirst, hothers⟩ := List.forall_mem_cons.1 h.fits
  obtain ⟨hfirstItems, hothersItems⟩ := List.forall_mem_cons.1 h.items
  have hafter := groupTexts_othersBranches others (0 + width (groupLexemes first)) hothers hothersItems
  rw [Tree.render_graftAll, listBranches, groupTexts_append,
    groupTexts_groupBranch (itemBranches_ne_nil hfirst.ne_nil _), List.singleton_append, groupsText_cons,
    textAll_itemBranches first false 0 hfirstItems, hafter, listLexemes, written_append]

end SelectorLint.Selector
