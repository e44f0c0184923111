import Mathlib.Data.List.Chain
import SelectorLint.Proofs.Selector.Acceptance
import SelectorLint.Proofs.Selector.Spans
import SelectorLint.Proofs.Tree.Numbering

/-!
# The shape of parsed selectors

Which nodes stand below which in the tree of a selector (`Tree.Shaped`): groups below the root and below
pseudo-classes, everything else below groups, and no two combinators next to each other, comments apart.
The nodes have the numbers of a walk.

The law on combinators is the one that needs an argument. A group fits if its signs are separated, but
white space adds combinators of its own. It does so only after a component and only if a component comes
next, so that what follows it fits after a combinator too (`fits_of_meetsComponent`).
-/

namespace SelectorLint.Selector

open Text Grammar Branch

/-- Comments apart, no two combinators are next to each other. -/
def Alternates (kinds : List Kind) : Prop :=
  (kinds.filter (· ≠ .comment)).IsChain fun left right => ¬(left = .combinator ∧ right = .combinator)

/-- How the nodes of a selector stand in its tree. -/
structure Tree.Shaped (tree : Tree) : Prop where
  root : tree.kind? 0 = some .root
  groups_ne_nil : tree.groups ≠ #[]
  groups : ∀ child ∈ tree.groups, tree.kind? child = some .selector
  group_ne_nil : ∀ id, tree.kind? id = some .selector → tree.children id ≠ #[]
  /-- Neither a group nor the root is right in a group. -/
  members : ∀ id, tree.kind? id = some .selector → ∀ child ∈ tree.children id,
    ∃ kind, tree.kind? child = some kind ∧ kind ≠ .selector ∧ kind ≠ .root
  /-- Only the root, groups and pseudo-classes have children. -/
  owners : ∀ id, tree.children id ≠ #[] →
    id = 0 ∨ tree.kind? id = some .selector ∨ tree.kind? id = some .pseudo
  arguments : ∀ id, tree.kind? id = some .pseudo →
    ∀ child ∈ tree.children id, tree.kind? child = some .selector
  /-- Comments apart, no two combinators are next to each other in a group. -/
  alternates : ∀ id, tree.kind? id = some .selector →
    ((tree.children id).toList.filter fun child => tree.kind? child ≠ some .comment).IsChain
      fun left right => ¬(tree.kind? left = some .combinator ∧ tree.kind? right = some .combinator)
  /-- The walk goes in the order in which the nodes were added. -/
  numbered : tree.walk.map Visit.id = List.range' 1 (tree.size - 1)

/-! ## Combinators in a group -/

/-- Where a component comes next, it makes no difference whether a combinator stands before. -/
theorem fits_of_meetsComponent {items : List Item} (hmeets : meetsComponent items)
    (h : fits false (groupTags items)) : fits true (groupTags items) := by
  induction items with
  | nil => cases hmeets
  | cons item rest ih =>
    cases item with
    | blank c => exact ih hmeets h
    | call double name first others => exact h
    | part piece =>
      rw [groupTags_part] at h ⊢
      rw [meetsComponent] at hmeets
      cases hsort : piece.sort with
      | comment =>
        rw [hsort] at h hmeets
        exact ih hmeets h
      | combinator =>
        rw [hsort] at hmeets
        cases hmeets
      | component =>
        rw [hsort] at h
        exact h

theorem alternates_cons_comment {kind : Kind} {kinds : List Kind} (h : Alternates (kind :: kinds)) :
    Alternates (kind :: .comment :: kinds) := by
  unfold Alternates at h ⊢
  rw [List.filter_cons] at h ⊢
  simpa using h

theorem alternates_cons {left right : Kind} {kinds : List Kind} (hleft : left ≠ .comment)
    (hright : right ≠ .comment) (hnot : ¬(left = .combinator ∧ right = .combinator))
    (h : Alternates (right :: kinds)) : Alternates (left :: right :: kinds) := by
  unfold Alternates at h ⊢
  rw [List.filter_cons_of_pos (by simpa using hleft)]
  rw [List.filter_cons_of_pos (by simpa using hright)] at h ⊢
  exact List.isChain_cons_cons.2 ⟨hnot, h⟩

theorem alternates_of_cons {kind : Kind} {kinds : List Kind} (h : Alternates (kind :: kinds)) :
    Alternates kinds := by
  unfold Alternates at h ⊢
  rw [List.filter_cons] at h
  split at h
  · exact h.tail
  · exact h

/-- The kinds of the top nodes. -/
def kindsOf (branches : List Branch) : List Kind := branches.map fun branch => branch.label.kind

@[simp] theorem kindsOf_partLeaf (part : Placed Part) (rest : List Branch) :
    kindsOf (partLeaf part :: rest) = part.piece.kind :: kindsOf rest := rfl

@[simp] theorem kindsOf_callBranch (offset : Nat) (double : Bool) (name : List Char) (first : List Item)
    (others : List (List Item)) (rest : List Branch) :
    kindsOf (callBranch offset double name first others :: rest) = .pseudo :: kindsOf rest := rfl

theorem kind_of_sort (piece : Part) :
    (piece.sort = .comment → piece.kind = .comment) ∧
      (piece.sort = .combinator → piece.kind = .combinator) := by
  cases piece <;> simp [Part.sort, Part.kind]

theorem kind_of_component {piece : Part} (h : piece.WellFormed) (hsort : piece.sort = .component) :
    piece.kind ≠ .combinator ∧ piece.kind ≠ .comment := by
  cases piece with
  | descendant => exact h.elim
  | combinator | comment => cases hsort
  | _ => simp [Part.kind]

theorem wellFormed_of_valid {piece : Part} (h : (Item.part piece).Valid) : piece.WellFormed := by
  cases h with
  | part hpiece => exact hpiece

/-- After a node of the kind `previous`, the nodes of items that fit alternate. White space `joins` only
where a component stands before it. -/
theorem alternates_items {items : List Item} (hitems : ∀ item ∈ items, item.Valid) :
    ∀ (previous : Kind) (joins : Bool) (offset : Nat), previous ≠ .comment →
      fits (decide (previous = .combinator)) (groupTags items) → (joins → previous ≠ .combinator) →
      Alternates (previous :: kindsOf (itemBranches joins offset items)) := by
  induction items with
  | nil =>
    intro previous joins offset hprevious _ _
    rw [itemBranches]
    simp [kindsOf, Alternates, hprevious]
  | cons item rest ih =>
    intro previous joins offset hprevious h hjoins
    obtain ⟨hitem, hrest⟩ := List.forall_mem_cons.1 hitems
    cases item with
    | blank c =>
      rw [itemBranches]
      split
      next hspace =>
        rw [Bool.and_eq_true] at hspace
        have hne := hjoins hspace.1
        rw [groupTags_blank, decide_eq_false hne] at h
        have hfits := fits_of_meetsComponent hspace.2 h
        rw [List.singleton_append, kindsOf_partLeaf]
        apply alternates_cons hprevious
        · simp [Part.kind]
        · exact fun hboth => hne hboth.1
        · exact ih hrest .combinator false _ (by simp) hfits (by simp)
      · exact ih hrest previous false _ hprevious h (by simp)
    | call double name first others =>
      rw [groupTags_call, fits] at h
      rw [itemBranches_call, kindsOf_callBranch]
      apply alternates_cons hprevious
      · simp
      · simp
      · exact ih hrest .pseudo true _ (by simp) h (by simp)
    | part piece =>
      rw [groupTags_part] at h
      rw [itemBranches, kindsOf_partLeaf]
      cases hsort : piece.sort with
      | comment =>
        rw [hsort] at h
        rw [(kind_of_sort piece).1 hsort]
        exact alternates_cons_comment (ih hrest previous joins _ hprevious h hjoins)
      | combinator =>
        rw [hsort, fits, Bool.and_eq_true, Bool.not_eq_true', decide_eq_false_iff_not] at h
        rw [(kind_of_sort piece).2 hsort]
        apply alternates_cons hprevious
        · simp
        · exact fun hboth => h.1 hboth.1
        · exact ih hrest .combinator false _ (by simp) h.2 (by simp)
      | component =>
        rw [hsort, fits] at h
        obtain ⟨hcombinator, hcomment⟩ := kind_of_component (wellFormed_of_valid hitem) hsort
        apply alternates_cons hprevious hcomment
        · exact fun hboth => hcombinator hboth.2
        · rw [← decide_eq_false hcombinator] at h
          exact ih hrest piece.kind true _ hcomment h fun _ => hcombinator

/-! ## Branches -/

/-- A branch and what is right below it stand to each other as in a selector. -/
structure Branch.Proper (label : Label) (children : List Branch) : Prop where
  group_ne_nil : label.kind = .selector → children ≠ []
  members : label.kind = .selector →
    ∀ child ∈ children, child.label.kind ≠ .selector ∧ child.label.kind ≠ .root
  arguments : label.kind = .pseudo → ∀ child ∈ children, child.label.kind = .selector
  owners : children ≠ [] → label.kind = .selector ∨ label.kind = .pseudo
  alternates : label.kind = .selector → Alternates (kindsOf children)

/-- All parts of the branches are proper. -/
def AllProper (branches : List Branch) : Prop :=
  ∀ label children, .node label children ∈ partsAll branches → Branch.Proper label children

theorem allProper_nil : AllProper [] := by
  intro label children hmem
  cases hmem

theorem allProper_append {first second : List Branch} (hfirst : AllProper first)
    (hsecond : AllProper second) : AllProper (first ++ second) := by
  intro label children hmem
  rw [partsAll_append] at hmem
  rcases List.mem_append.1 hmem with hmem | hmem
  · exact hfirst label children hmem
  · exact hsecond label children hmem

theorem allProper_cons {label : Label} {children rest : List Branch} (h : Branch.Proper label children)
    (hchildren : AllProper children) (hrest : AllProper rest) :
    AllProper (.node label children :: rest) := by
  intro other below hmem
  rw [partsAll, parts, List.cons_append] at hmem
  rcases List.mem_cons.1 hmem with heq | hmem
  · cases heq
    exact h
  · rcases List.mem_append.1 hmem with hmem | hmem
    · exact hchildren other below hmem
    · exact hrest other below hmem

/-- A part by itself has nothing below it. -/
theorem proper_part (piece : Part) (offset : Nat) :
    Branch.Proper ⟨piece.kind, piece.value, offset⟩ [] where
  group_ne_nil hselector := absurd hselector (kind_ne_selector piece)
  members _ _ hmem := by cases hmem
  arguments _ _ hmem := by cases hmem
  owners hne := absurd rfl hne
  alternates hselector := absurd hselector (kind_ne_selector piece)

/-- Neither a group nor the root is right in a group. -/
theorem kind_ne_of_mem_itemBranches (items : List Item) (joins : Bool) (offset : Nat) :
    ∀ branch ∈ itemBranches joins offset items,
      branch.label.kind ≠ .selector ∧ branch.label.kind ≠ .root := by
  have hpart : ∀ piece : Part, piece.kind ≠ .selector ∧ piece.kind ≠ .root := by
    intro piece
    cases piece <;> simp [Part.kind]
  induction items generalizing joins offset with
  | nil =>
    rw [itemBranches]
    simp
  | cons item rest ih =>
    cases item with
    | blank c =>
      rw [itemBranches]
      refine List.forall_mem_append.2 ⟨?_, ih _ _⟩
      intro branch hbranch
      split at hbranch
      · obtain rfl := List.mem_singleton.1 hbranch
        exact hpart (.descendant c)
      · cases hbranch
    | part piece =>
      rw [itemBranches]
      exact List.forall_mem_cons.2 ⟨hpart piece, ih _ _⟩
    | call double name first others =>
      rw [itemBranches_call]
      exact List.forall_mem_cons.2 ⟨hpart (.pseudo double name), ih _ _⟩

theorem allProper_groupBranch {items : List Item} (hitems : ∀ item ∈ items, item.Valid)
    (hfits : fits false (groupTags items)) {offset : Nat}
    (h : AllProper (itemBranches false offset items)) :
    AllProper (groupBranch (itemBranches false offset items)) := by
  have halternates : Alternates (kindsOf (itemBranches false offset items)) := by
    have hafter := alternates_items hitems .root false offset (by simp) hfits (by simp)
    exact alternates_of_cons hafter
  have hmembers := kind_ne_of_mem_itemBranches items false offset
  generalize itemBranches false offset items = branches at *
  cases branches with
  | nil => exact allProper_nil
  | cons first rest =>
    rw [groupBranch]
    refine allProper_cons ?_ h allProper_nil
    exact ⟨fun _ => by simp, fun _ => hmembers, by simp, fun _ => .inl rfl, fun _ => halternates⟩

theorem kind_of_mem_groupBranch {branches : List Branch} {branch : Branch}
    (h : branch ∈ groupBranch branches) : branch.label.kind = .selector := by
  cases branches with
  | nil => cases h
  | cons first rest =>
    obtain rfl := List.mem_singleton.1 h
    rfl

theorem kind_of_mem_othersBranches {others : List (List Item)} {offset : Nat} {branch : Branch}
    (h : branch ∈ othersBranches offset others) : branch.label.kind = .selector := by
  induction others generalizing offset with
  | nil =>
    rw [othersBranches] at h
    cases h
  | cons group rest ih =>
    rw [othersBranches] at h
    rcases List.mem_append.1 h with h | h
    · exact kind_of_mem_groupBranch h
    · exact ih h

/-- A list of groups has only groups. -/
theorem kind_of_mem_listBranches {first : List Item} {others : List (List Item)} {offset : Nat}
    {branch : Branch} (h : branch ∈ listBranches offset first others) : branch.label.kind = .selector := by
  rcases List.mem_append.1 h with h | h
  · exact kind_of_mem_groupBranch h
  · exact kind_of_mem_othersBranches h

/-- With more items after it, the item has only proper branches. -/
def Item.BranchesProperly (item : Item) : Prop :=
  ∀ joins offset rest,
    (∀ joins', AllProper (itemBranches joins' (offset + width item.lexemes) rest)) →
    AllProper (itemBranches joins offset (item :: rest))

theorem allProper_items {items : List Item} (h : ∀ item ∈ items, item.BranchesProperly) (joins : Bool)
    (offset : Nat) : AllProper (itemBranches joins offset items) := by
  induction items generalizing joins offset with
  | nil =>
    rw [itemBranches]
    exact allProper_nil
  | cons item rest ih =>
    obtain ⟨hitem, hrest⟩ := List.forall_mem_cons.1 h
    exact hitem joins offset rest fun joins' => ih hrest joins' _

theorem allProper_list {first : List Item} {others : List (List Item)}
    (hfits : ∀ group ∈ first :: others, fits false (groupTags group))
    (hvalid : ∀ group ∈ first :: others, ∀ item ∈ group, item.Valid)
    (h : ∀ group ∈ first :: others, ∀ item ∈ group, item.BranchesProperly) (offset : Nat) :
    AllProper (listBranches offset first others) := by
  have hgroup : ∀ group ∈ first :: others, ∀ start,
      AllProper (groupBranch (itemBranches false start group)) := fun group hmem start =>
    allProper_groupBranch (hvalid group hmem) (hfits group hmem) (allProper_items (h group hmem) false start)
  obtain ⟨hfirst, hothers⟩ := List.forall_mem_cons.1 hgroup
  refine allProper_append (hfirst offset) ?_
  generalize offset + width (groupLexemes first) = start
  clear hfits hvalid h hgroup hfirst
  induction others generalizing start with
  | nil =>
    rw [othersBranches]
    exact allProper_nil
  | cons group rest ih =>
    obtain ⟨hone, hrest⟩ := List.forall_mem_cons.1 hothers
    rw [othersBranches]
    exact allProper_append (hone (start + 1)) (ih hrest _)

theorem branchesProperly_call {double : Bool} {name : List Char} {first : List Item}
    {others : List (List Item)} (hfits : ∀ group ∈ first :: others, fits false (groupTags group))
    (hvalid : ∀ group ∈ first :: others, ∀ item ∈ group, item.Valid)
    (h : ∀ group ∈ first :: others, ∀ item ∈ group, item.BranchesProperly) :
    (Item.call double name first others).BranchesProperly := by
  intro joins offset rest hrest
  rw [itemBranches_call, callBranch]
  refine allProper_cons ?_ (allProper_list hfits hvalid h _) (hrest true)
  exact ⟨by simp, by simp, fun _ _ => kind_of_mem_listBranches, fun _ => .inr rfl, by simp⟩

theorem branchesProperly_of_valid {item : Item} (h : item.Valid) : item.BranchesProperly := by
  induction h with
  | @blank c hc =>
    intro joins offset rest hrest
    have hwidth : width (Item.blank c).lexemes = c.utf8Size := by simp [Item.lexemes, Lexeme.text]
    rw [hwidth] at hrest
    rw [itemBranches]
    refine allProper_append ?_ (hrest false)
    split
    · exact allProper_cons (proper_part (.descendant c) offset) allProper_nil allProper_nil
    · exact allProper_nil
  | @part piece hpiece =>
    intro joins offset rest hrest
    have hwidth : width (Item.part piece).lexemes = byteLength piece.text := by
      simp [Item.lexemes, Lexeme.text]
    rw [hwidth] at hrest
    rw [itemBranches]
    exact allProper_cons (proper_part piece offset) allProper_nil (hrest _)
  | emptyCall _ hnone hitems ih =>
    refine branchesProperly_call ?_ (by simpa using hitems) (by simpa using ih)
    simp [hnone, fits]
  | call _ hfits hitems ih =>
    exact branchesProperly_call (fun group hgroup => (hfits group hgroup).fits) hitems ih

/-! ## The tree -/

theorem itemBranches_ne_nil {items : List Item} (h : groupTags items ≠ []) (offset : Nat) :
    itemBranches false offset items ≠ [] := by
  induction items generalizing offset with
  | nil => exact absurd rfl h
  | cons item rest ih =>
    cases item with
    | blank c =>
      rw [itemBranches]
      simpa using ih h _
    | part piece =>
      rw [itemBranches]
      simp
    | call double name first others =>
      rw [itemBranches_call]
      simp

theorem listBranches_ne_nil {first : List Item} {others : List (List Item)}
    (h : ValidList first others) : listBranches 0 first others ≠ [] := by
  have hne := itemBranches_ne_nil (h.fits first List.mem_cons_self).ne_nil 0
  obtain ⟨child, rest, heq⟩ := List.exists_cons_of_ne_nil hne
  rw [listBranches, heq, groupBranch]
  simp

/-- The kind of a child is that of its branch. -/
theorem exists_branch_of_mem {tree : Tree} {ids : List Nat} {branches : List Branch}
    (h : ids.map tree.label? = branches.map fun branch => some branch.label) {id : Nat} (hid : id ∈ ids) :
    ∃ branch ∈ branches, tree.kind? id = some branch.label.kind := by
  have hmem : tree.label? id ∈ ids.map tree.label? := List.mem_map_of_mem hid
  rw [h] at hmem
  obtain ⟨branch, hbranch, hlabel⟩ := List.mem_map.1 hmem
  refine ⟨branch, hbranch, ?_⟩
  rw [Tree.kind?_eq_map_label?, ← hlabel]
  rfl

theorem isChain_of_alternates {tree : Tree} {ids : List Nat} {branches : List Branch}
    (hlabels : ids.map tree.label? = branches.map fun branch => some branch.label)
    (h : Alternates (kindsOf branches)) :
    (ids.filter fun child => tree.kind? child ≠ some .comment).IsChain
      fun left right => ¬(tree.kind? left = some .combinator ∧ tree.kind? right = some .combinator) := by
  have hkinds : ids.map tree.kind? = (kindsOf branches).map some := by
    have hmap := congrArg (List.map (Option.map Label.kind)) hlabels
    rw [List.map_map, List.map_map] at hmap
    rw [kindsOf, List.map_map]
    refine Eq.trans ?_ hmap
    exact List.map_congr_left fun id _ => tree.kind?_eq_map_label? id
  have hfilter : (ids.filter fun child => tree.kind? child ≠ some .comment).map tree.kind? =
      ((kindsOf branches).filter (· ≠ .comment)).map some := by
    calc (ids.filter fun child => tree.kind? child ≠ some .comment).map tree.kind?
      _ = (ids.map tree.kind?).filter fun kind => kind ≠ some .comment := by
        rw [List.filter_map]
        rfl
      _ = ((kindsOf branches).map some).filter fun kind => kind ≠ some .comment := by rw [hkinds]
      _ = ((kindsOf branches).filter fun kind => some kind ≠ some .comment).map some := List.filter_map
      _ = _ := by simp
  have hchain : (((kindsOf branches).filter (· ≠ .comment)).map some).IsChain
      fun left right => ¬(left = some .combinator ∧ right = some .combinator) := by
    rw [List.isChain_map]
    simp only [Option.some.injEq]
    exact h
  rw [← hfilter, List.isChain_map] at hchain
  exact hchain

theorem children_ne_nil_iff {tree : Tree} {ids : Array Nat} {branches : List Branch}
    (h : ids.toList.map tree.label? = branches.map fun branch => some branch.label) :
    ids ≠ #[] ↔ branches ≠ [] := by
  have hlength := congrArg List.length h
  rw [List.length_map, List.length_map, Array.length_toList] at hlength
  rw [← Array.size_pos_iff, ← List.length_pos_iff, hlength]

/-- The tree of proper branches, all of them groups, has the shape of a selector. -/
theorem shaped_graftAll {branches : List Branch} (hne : branches ≠ []) (h : AllProper branches)
    (hgroups : ∀ branch ∈ branches, branch.label.kind = .selector) :
    (Tree.empty.graftAll 0 branches).Shaped := by
  have hroot := Tree.label?_zero_graftAll branches
  have hlabels := Tree.map_label?_groups_graftAll branches
  refine ⟨?_, ?_, ?_, ?_, ?_, ?_, ?_, ?_, Tree.map_walk_graftAll branches⟩
  · rw [Tree.kind?_eq_map_label?, hroot]
    rfl
  · exact (children_ne_nil_iff hlabels).2 hne
  · intro child hchild
    obtain ⟨branch, hbranch, hkind⟩ := exists_branch_of_mem hlabels (Array.mem_toList_iff.2 hchild)
    rw [hkind, hgroups branch hbranch]
  · intro id hid
    obtain ⟨label, children, hmem, hselector, hbelow⟩ := Tree.exists_node_of_kind? hid (by simp)
    exact (children_ne_nil_iff hbelow).2 ((h label children hmem).group_ne_nil hselector)
  · intro id hid child hchild
    obtain ⟨label, children, hmem, hselector, hbelow⟩ := Tree.exists_node_of_kind? hid (by simp)
    obtain ⟨branch, hbranch, hkind⟩ := exists_branch_of_mem hbelow (Array.mem_toList_iff.2 hchild)
    exact ⟨branch.label.kind, hkind, (h label children hmem).members hselector branch hbranch⟩
  · intro id hid
    by_cases hzero : id = 0
    · exact .inl hzero
    · obtain ⟨child, hchild⟩ := Array.exists_mem_of_ne_empty _ hid
      have hlt := (Tree.lt_of_mem_children hchild).1
      obtain ⟨label, children, hmem, hkind, hbelow⟩ := Tree.exists_node_of_lt hzero hlt
      have howner := (h label children hmem).owners ((children_ne_nil_iff hbelow).1 hid)
      rw [hkind]
      exact .inr (howner.imp (congrArg some) (congrArg some))
  · intro id hid child hchild
    obtain ⟨label, children, hmem, hpseudo, hbelow⟩ := Tree.exists_node_of_kind? hid (by simp)
    obtain ⟨branch, hbranch, hkind⟩ := exists_branch_of_mem hbelow (Array.mem_toList_iff.2 hchild)
    rw [hkind, (h label children hmem).arguments hpseudo branch hbranch]
  · intro id hid
    obtain ⟨label, children, hmem, hselector, hbelow⟩ := Tree.exists_node_of_kind? hid (by simp)
    exact isChain_of_alternates hbelow ((h label children hmem).alternates hselector)

/-- The tree of every selector that parses has the shape of a selector. -/
theorem parse_shaped {selector : String} {tree : Tree} (h : parse selector = .ok tree) : tree.Shaped := by
  obtain ⟨first, others, hlist, -, rfl⟩ := parse_eq_ok_iff.1 h
  apply shaped_graftAll (listBranches_ne_nil hlist)
  · apply allProper_list
    · exact fun group hgroup => (hlist.fits group hgroup).fits
    · exact hlist.items
    · exact fun group hgroup item hitem => branchesProperly_of_valid (hlist.items group hgroup item hitem)
  · exact fun branch => kind_of_mem_listBranches

/-- White space, comments and signs between two components, in the arguments of a pseudo-class too. -/
theorem parse_shaped_mixed : ∃ tree, parse "> a /**/ :not(b /**/ c, d /**/ +) ,e" = .ok tree ∧ tree.Shaped := by
  have hok : (parse "> a /**/ :not(b /**/ c, d /**/ +) ,e").isOk := by decide +kernel
  cases hparse : parse "> a /**/ :not(b /**/ c, d /**/ +) ,e" with
  | error fault =>
    rw [hparse] at hok
    cases hok
  | ok tree => exact ⟨tree, rfl, parse_shaped hparse⟩

end SelectorLint.Selector
