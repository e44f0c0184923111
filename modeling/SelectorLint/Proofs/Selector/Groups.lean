import SelectorLint.Proofs.Selector.Placement
import SelectorLint.Proofs.Selector.Shape

/-!
# Groups in the text of a selector

The lexemes of a selector have offsets, and so have the nodes of its tree. `lexemesAt` gives the lexemes
from an offset on, and `afterComponent` goes past the component that they begin with, its arguments
included.

The children of a group, at any depth, are the nodes of items whose lexemes follow each other in the
selector (`exists_items_of_group`), and each child is made of the lexeme at its offset
(`beginsAt_of_mem`).
-/

namespace SelectorLint.Selector

open Text Branch

/-- The lexemes of a selector, from an offset on. -/
def lexemesAt (selector : String) (offset : Nat) : List (Placed Lexeme) :=
  (placed Lexeme.text 0 (lexemes selector.toList).pieces).dropWhile fun lexeme => lexeme.offset < offset

/-- What follows the parenthesis that closes the arguments in which the lexemes stand. There are `inner`
more arguments open inside. -/
def afterClose (inner : Nat) : List (Placed Lexeme) → List (Placed Lexeme)
  | [] => []
  | lexeme :: rest =>
    match lexeme.piece, inner with
    | .call _ _, inner => afterClose (inner + 1) rest
    | .close, 0 => rest
    | .close, outer + 1 => afterClose outer rest
    | _, inner => afterClose inner rest

/-- What follows the component that the lexemes begin with. -/
def afterComponent : List (Placed Lexeme) → List (Placed Lexeme)
  | [] => []
  | lexeme :: rest =>
    match lexeme.piece with
    | .call _ _ => afterClose 0 rest
    | _ => rest

/-- What the children of a node say about themselves, in order. -/
def Tree.childLabels (tree : Tree) (id : Nat) : List Label :=
  (tree.children id).toList.filterMap tree.label?

/-- What the top nodes say about themselves. -/
def labelsOf (branches : List Branch) : List Label := branches.map Branch.label

@[simp] theorem labelsOf_nil : labelsOf [] = [] := rfl

@[simp] theorem labelsOf_partLeaf (part : Placed Part) (rest : List Branch) :
    labelsOf (partLeaf part :: rest) = ⟨part.piece.kind, part.piece.value, part.offset⟩ :: labelsOf rest :=
  rfl

@[simp] theorem labelsOf_callBranch (offset : Nat) (double : Bool) (name : List Char) (first : List Item)
    (others : List (List Item)) (rest : List Branch) :
    labelsOf (callBranch offset double name first others :: rest) =
      ⟨.pseudo, (Part.pseudo double name).value, offset⟩ :: labelsOf rest := rfl

@[simp] theorem width_blank (c : Char) : width (Item.blank c).lexemes = c.utf8Size := by
  simp [Item.lexemes, Lexeme.text]

@[simp] theorem width_part (piece : Part) : width (Item.part piece).lexemes = byteLength piece.text := by
  simp [Item.lexemes, Lexeme.text]

theorem groupLexemes_append (front back : List Item) :
    groupLexemes (front ++ back) = groupLexemes front ++ groupLexemes back := by
  induction front with
  | nil => rfl
  | cons item front ih => rw [List.cons_append, groupLexemes, groupLexemes, ih, List.append_assoc]

/-! ## Groups in the text -/

/-- The children are those of a group of the lexemes, which follow each other from `offset` on. -/
def InGroup (offset : Nat) (lexemes : List Lexeme) (children : List Branch) : Prop :=
  ∃ front items back, lexemes = front ++ (groupLexemes items ++ back) ∧ (∀ item ∈ items, item.Valid) ∧
    children = itemBranches false (offset + width front) items

/-- All groups of the branches are groups of the lexemes. -/
def GroupsIn (offset : Nat) (lexemes : List Lexeme) (branches : List Branch) : Prop :=
  ∀ label children, .node label children ∈ partsAll branches → label.kind = .selector →
    InGroup offset lexemes children

namespace GroupsIn

variable {offset : Nat} {lexemes others : List Lexeme} {branches more : List Branch}

theorem nil (offset : Nat) (lexemes : List Lexeme) : GroupsIn offset lexemes [] := by
  intro label children hmem
  cases hmem

theorem append (h : GroupsIn offset lexemes branches) (hmore : GroupsIn (offset + width lexemes) others more) :
    GroupsIn offset (lexemes ++ others) (branches ++ more) := by
  intro label children hmem hkind
  rw [partsAll_append] at hmem
  rcases List.mem_append.1 hmem with hmem | hmem
  · obtain ⟨front, items, back, rfl, hitems, hchildren⟩ := h label children hmem hkind
    exact ⟨front, items, back ++ others, by simp, hitems, hchildren⟩
  · obtain ⟨front, items, back, rfl, hitems, hchildren⟩ := hmore label children hmem hkind
    refine ⟨lexemes ++ front, items, back, by simp, hitems, ?_⟩
    rw [hchildren, width_append, Nat.add_assoc]

theorem node {label : Label} (hlabel : label.kind ≠ .selector) (h : GroupsIn offset lexemes branches) :
    GroupsIn offset lexemes [.node label branches] := by
  intro other children hmem hkind
  rw [partsAll, parts, partsAll, List.append_nil] at hmem
  rcases List.mem_cons.1 hmem with heq | hmem
  · cases heq
    exact absurd hkind hlabel
  · exact h other children hmem hkind

/-- The items of a group make a group of their own lexemes. -/
theorem group {items : List Item} (hitems : ∀ item ∈ items, item.Valid)
    (h : GroupsIn offset (groupLexemes items) (itemBranches false offset items)) :
    GroupsIn offset (groupLexemes items) (groupBranch (itemBranches false offset items)) := by
  have hwhole : InGroup offset (groupLexemes items) (itemBranches false offset items) :=
    ⟨[], items, [], by simp, hitems, rfl⟩
  generalize itemBranches false offset items = branches at h hwhole
  cases branches with
  | nil => exact nil _ _
  | cons child rest =>
    intro label children hmem hkind
    rw [groupBranch, partsAll, parts, partsAll, List.append_nil] at hmem
    rcases List.mem_cons.1 hmem with heq | hmem
    · cases heq
      exact hwhole
    · exact h label children hmem hkind

end GroupsIn

/-- The groups in the arguments of the item are groups of its lexemes, whatever comes after it. -/
def Item.GroupsInside (item : Item) : Prop :=
  ∀ joins offset rest,
    (∀ joins', GroupsIn (offset + width item.lexemes) (groupLexemes rest)
      (itemBranches joins' (offset + width item.lexemes) rest)) →
    GroupsIn offset (groupLexemes (item :: rest)) (itemBranches joins offset (item :: rest))

theorem groupsIn_items {items : List Item} (h : ∀ item ∈ items, item.GroupsInside) (joins : Bool)
    (offset : Nat) : GroupsIn offset (groupLexemes items) (itemBranches joins offset items) := by
  induction items generalizing joins offset with
  | nil =>
    rw [itemBranches]
    exact .nil _ _
  | cons item rest ih =>
    obtain ⟨hitem, hrest⟩ := List.forall_mem_cons.1 h
    exact hitem joins offset rest fun joins' => ih hrest joins' _

theorem groupsIn_list {first : List Item} {others : List (List Item)}
    (hvalid : ∀ group ∈ first :: others, ∀ item ∈ group, item.Valid)
    (h : ∀ group ∈ first :: others, ∀ item ∈ group, item.GroupsInside) (offset : Nat) :
    GroupsIn offset (listLexemes first others) (listBranches offset first others) := by
  have hgroup : ∀ group ∈ first :: others, ∀ start,
      GroupsIn start (groupLexemes group) (groupBranch (itemBranches false start group)) :=
    fun group hmem start => .group (hvalid group hmem) (groupsIn_items (h group hmem) false start)
  obtain ⟨hfirst, hothers⟩ := List.forall_mem_cons.1 hgroup
  refine (hfirst offset).append ?_
  generalize offset + width (groupLexemes first) = start
  clear hvalid h hgroup hfirst
  induction others generalizing start with
  | nil =>
    rw [othersBranches]
    exact .nil _ _
  | cons group rest ih =>
    obtain ⟨hone, hrest⟩ := List.forall_mem_cons.1 hothers
    have hcomma : GroupsIn start [.comma] [] := .nil _ _
    rw [othersBranches, othersLexemes]
    exact hcomma.append ((hone (start + 1)).append (ih hrest _))

theorem groupsInside_call {double : Bool} {name : List Char} {first : List Item}
    {others : List (List Item)} (hvalid : ∀ group ∈ first :: others, ∀ item ∈ group, item.Valid)
    (h : ∀ group ∈ first :: others, ∀ item ∈ group, item.GroupsInside) :
    (Item.call double name first others).GroupsInside := by
  intro joins offset rest hrest
  have hopen : GroupsIn offset [.call double name] [] := .nil _ _
  have hcall : GroupsIn offset (Item.call double name first others).lexemes
      [callBranch offset double name first others] := by
    rw [callBranch, Item.lexemes]
    refine GroupsIn.node (by simp) ?_
    have hlist := hopen.append ((groupsIn_list hvalid h _).append (.nil _ [.close]))
    simpa [listLexemes] using hlist
  rw [itemBranches_call, groupLexemes]
  exact hcall.append (hrest true)

theorem groupsInside_of_valid {item : Item} (h : item.Valid) : item.GroupsInside := by
  induction h with
  | @blank c hc =>
    intro joins offset rest hrest
    have hblank : GroupsIn offset (Item.blank c).lexemes
        (if joins && meetsComponent rest then [partLeaf ⟨offset, .descendant c⟩] else []) := by
      split
      · exact .node (by simp [Part.kind]) (.nil _ _)
      · exact .nil _ _
    have hmore := hrest false
    rw [itemBranches, groupLexemes]
    refine hblank.append ?_
    rwa [width_blank] at hmore ⊢
  | @part piece hpiece =>
    intro joins offset rest hrest
    have hpart : GroupsIn offset (Item.part piece).lexemes [partLeaf ⟨offset, piece⟩] :=
      .node (kind_ne_selector piece) (.nil _ _)
    have hmore := hrest (joinsAfter joins piece.sort)
    rw [itemBranches, groupLexemes]
    refine hpart.append ?_
    rwa [width_part] at hmore ⊢
  | emptyCall _ _ hitems ih => exact groupsInside_call (by simpa using hitems) (by simpa using ih)
  | call _ _ hitems ih => exact groupsInside_call hitems ih

/-! ## Lexemes past a component -/

theorem text_ne_nil_of_lexemes {text : List Char} {pieces : List Lexeme}
    (h : lexemes text = ⟨pieces, none⟩) : ∀ lexeme ∈ pieces, lexeme.text ≠ [] := by
  induction pieces generalizing text with
  | nil => simp
  | cons lexeme pieces ih =>
    obtain ⟨c, more, rest, rfl, hnext, hrest⟩ := exists_next_of_lexemes h
    exact List.forall_mem_cons.2 ⟨(splits_of_next hnext).text_ne_nil, ih hrest⟩

theorem dropWhile_placed {front : List Lexeme} (h : ∀ lexeme ∈ front, lexeme.text ≠ []) (back : List Lexeme)
    (start : Nat) :
    (placed Lexeme.text start (front ++ back)).dropWhile (fun lexeme => lexeme.offset < start + width front) =
      placed Lexeme.text (start + width front) back := by
  induction front generalizing start with
  | nil =>
    cases back with
    | nil => rfl
    | cons lexeme back =>
      rw [List.nil_append, placed, List.dropWhile_cons_of_neg (by simp)]
      rfl
  | cons lexeme front ih =>
    obtain ⟨hlexeme, hfront⟩ := List.forall_mem_cons.1 h
    have hpos := byteLength_pos hlexeme
    rw [List.cons_append, placed, List.dropWhile_cons_of_pos (by simp; omega), width_cons,
      ← Nat.add_assoc]
    exact ih hfront _

/-- The lexemes from a place between two of them on. -/
theorem lexemesAt_of_append {selector : String} {front back : List Lexeme}
    (h : lexemes selector.toList = ⟨front ++ back, none⟩) :
    lexemesAt selector (width front) = placed Lexeme.text (width front) back := by
  have hne : ∀ lexeme ∈ front, lexeme.text ≠ [] := fun lexeme hlexeme =>
    text_ne_nil_of_lexemes h lexeme (List.mem_append_left _ hlexeme)
  have hdrop := dropWhile_placed hne back 0
  rw [lexemesAt, h]
  simpa using hdrop

theorem afterClose_call (inner offset : Nat) (double : Bool) (name : List Char) (rest : List (Placed Lexeme)) :
    afterClose inner (⟨offset, .call double name⟩ :: rest) = afterClose (inner + 1) rest := by
  cases inner <;> rfl

theorem afterClose_comma (inner offset : Nat) (rest : List (Placed Lexeme)) :
    afterClose inner (⟨offset, .comma⟩ :: rest) = afterClose inner rest := by
  cases inner <;> rfl

theorem afterClose_close (outer offset : Nat) (rest : List (Placed Lexeme)) :
    afterClose (outer + 1) (⟨offset, .close⟩ :: rest) = afterClose outer rest := rfl

mutual

/-- Whole items in the arguments leave the parentheses that are open. -/
theorem afterClose_items : ∀ (items : List Item) (inner offset : Nat) (more : List Lexeme),
    afterClose inner (placed Lexeme.text offset (groupLexemes items ++ more)) =
      afterClose inner (placed Lexeme.text (offset + width (groupLexemes items)) more)
  | [], inner, offset, more => rfl
  | .blank c :: rest, inner, offset, more => by
    have hrest := afterClose_items rest inner (offset + c.utf8Size) more
    simpa [groupLexemes, Item.lexemes, placed, afterClose, Lexeme.text, Nat.add_assoc] using hrest
  | .part piece :: rest, inner, offset, more => by
    have hrest := afterClose_items rest inner (offset + byteLength piece.text) more
    simpa [groupLexemes, Item.lexemes, placed, afterClose, Lexeme.text, Nat.add_assoc] using hrest
  | .call double name first others :: rest, inner, offset, more => by
    have hsplit : groupLexemes (.call double name first others :: rest) ++ more =
        .call double name :: (groupLexemes first ++ (othersLexemes others ++
          .close :: (groupLexemes rest ++ more))) := by
      simp [groupLexemes, Item.lexemes]
    rw [hsplit, placed, afterClose_call, afterClose_items first, afterClose_others others, placed,
      afterClose_close, afterClose_items rest]
    simp [groupLexemes, Item.lexemes, Nat.add_assoc]

theorem afterClose_others : ∀ (others : List (List Item)) (inner offset : Nat) (more : List Lexeme),
    afterClose inner (placed Lexeme.text offset (othersLexemes others ++ more)) =
      afterClose inner (placed Lexeme.text (offset + width (othersLexemes others)) more)
  | [], inner, offset, more => rfl
  | group :: rest, inner, offset, more => by
    rw [othersLexemes, List.cons_append, List.append_assoc, placed, afterClose_comma, afterClose_items group,
      afterClose_others rest]
    simp [Nat.add_assoc]

end

theorem afterComponent_item {item : Item} (h : item.sort? = some .component) (offset : Nat)
    (more : List Lexeme) :
    afterComponent (placed Lexeme.text offset (item.lexemes ++ more)) =
      placed Lexeme.text (offset + width item.lexemes) more := by
  cases item with
  | blank c => cases h
  | part piece => simp [Item.lexemes, placed, afterComponent, Lexeme.text]
  | call double name first others =>
    have hsplit : (Item.call double name first others).lexemes ++ more =
        .call double name :: (groupLexemes first ++ (othersLexemes others ++ .close :: more)) := by
      simp [Item.lexemes]
    calc afterComponent (placed Lexeme.text offset ((Item.call double name first others).lexemes ++ more))
      _ = afterClose 0 (placed Lexeme.text (offset + byteLength (Lexeme.call double name).text)
            (groupLexemes first ++ (othersLexemes others ++ .close :: more))) := by
        rw [hsplit]
        rfl
      _ = placed Lexeme.text (offset + width (Item.call double name first others).lexemes) more := by
        rw [afterClose_items, afterClose_others]
        simp [placed, afterClose, Item.lexemes, Nat.add_assoc]

/-! ## Nodes of groups -/

/-- The lexeme that a node is made of stands at its offset. -/
def BeginsAt (selector : String) (label : Label) : Prop :=
  ∃ lexeme rest, lexemesAt selector label.offset = ⟨label.offset, lexeme⟩ :: rest ∧
    lexeme.node? = some (label.kind, label.value)

theorem mem_partsAll_of_mem {branch : Branch} {branches : List Branch} (h : branch ∈ branches) :
    branch ∈ partsAll branches := by
  induction branches with
  | nil => cases h
  | cons other rest ih =>
    rw [partsAll]
    rcases List.mem_cons.1 h with rfl | h
    · cases branch
      simp [parts]
    · exact List.mem_append_right _ (ih h)

theorem beginsAt_of_mem {selector : String} {front back : List Lexeme} {items : List Item}
    (hlexemes : lexemes selector.toList = ⟨front ++ (groupLexemes items ++ back), none⟩) {label : Label}
    (h : label ∈ labelsOf (itemBranches false (width front) items)) :
    BeginsAt selector label := by
  obtain ⟨branch, hbranch, rfl⟩ := List.mem_map.1 h
  have hkind := (kind_ne_of_mem_itemBranches items false (width front) branch hbranch).1
  obtain ⟨before, lexeme, after, hsplit, hoffset, hnode⟩ :=
    (laid_items items false (width front)).stands branch (mem_partsAll_of_mem hbranch) hkind
  have hwhole : front ++ (groupLexemes items ++ back) = (front ++ before) ++ lexeme :: (after ++ back) := by
    rw [hsplit]
    simp
  rw [hwhole] at hlexemes
  have hat := lexemesAt_of_append hlexemes
  rw [width_append, ← hoffset, placed] at hat
  exact ⟨lexeme, _, hat, hnode⟩

/-- The children of a group are the nodes of items, and the lexemes of those stand in the selector. -/
theorem exists_items_of_group {selector : String} {tree : Tree} (h : parse selector = .ok tree) {group : Nat}
    (hgroup : tree.kind? group = some .selector) :
    ∃ front items back, lexemes selector.toList = ⟨front ++ (groupLexemes items ++ back), none⟩ ∧
      (∀ item ∈ items, item.Valid) ∧
      tree.childLabels group = labelsOf (itemBranches false (width front) items) := by
  obtain ⟨first, others, hlist, hlexemes, rfl⟩ := parse_eq_ok_iff.1 h
  have hgroups := groupsIn_list hlist.items
    (fun group hgroup item hitem => groupsInside_of_valid (hlist.items group hgroup item hitem)) 0
  obtain ⟨label, children, hmem, hselector, hbelow⟩ := Tree.exists_node_of_kind? hgroup (by simp)
  obtain ⟨front, items, back, hsplit, hitems, rfl⟩ := hgroups label children hmem hselector
  refine ⟨front, items, back, by rw [hlexemes, hsplit], hitems, ?_⟩
  have hlabels := congrArg (List.filterMap id) hbelow
  rw [List.filterMap_map, List.filterMap_map, Nat.zero_add] at hlabels
  exact hlabels.trans (congrFun List.filterMap_eq_map _)

end SelectorLint.Selector
