import SelectorLint.Proofs.Selector.Acceptance
import SelectorLint.Proofs.Selector.Tiling
import SelectorLint.Proofs.Text.Trimming
import SelectorLint.Proofs.Tree.Walk

/-!
# Parsing loses and invents no text

The nodes of a parsed selector, apart from groups, tile its text in the order of the walk, and a group
starts where its first child does (`parse_tiles`).

Both are proved of the branches of a selector list, by recursion on its items, and carried over to the
tree by the walk of grafted branches.
-/

namespace SelectorLint.Selector

open Text Grammar Branch

/-! ## Parts as they are written -/

theorem written_of_wellFormed {piece : Part} (h : piece.WellFormed) (offset : Nat) :
    Label.Written ⟨piece.kind, piece.value, offset⟩ piece.text := by
  cases piece with
  | descendant => exact h.elim
  | combinator sign =>
    have hne : (Part.combinator sign).value ≠ " " := by cases sign <;> decide
    rw [Label.Written, Part.kind]
    rw [if_neg hne, Part.value, String.toList_ofList]
    all_goals exact nofun
  | attr body =>
    obtain ⟨before, after, hbefore, hafter, hbody⟩ := exists_trim_eq body
    refine ⟨before, after, hbefore, hafter, ?_⟩
    simp [Part.text, Part.value, ← hbody]
  | _ => simp [Label.Written, Part.kind, Part.value, Part.text]

theorem text_ne_nil {piece : Part} (h : piece.WellFormed) : piece.text ≠ [] := by
  cases piece with
  | combinator sign => cases sign <;> exact nofun
  | tag => exact h.ne_nil
  | pseudo double => cases double <;> exact nofun
  | _ => exact nofun

/-! ## Branches tile the text -/

/-- What the nodes of the branches say about themselves, apart from groups. -/
def spelled (branches : List Branch) : List Label :=
  ((partsAll branches).map Branch.label).filter fun label => label.kind ≠ .selector

@[simp] theorem spelled_append (first second : List Branch) :
    spelled (first ++ second) = spelled first ++ spelled second := by
  simp [spelled, partsAll_append]

theorem spelled_cons_of_ne {label : Label} (hkind : label.kind ≠ .selector) (children rest : List Branch) :
    spelled (.node label children :: rest) = label :: (spelled children ++ spelled rest) := by
  simp [spelled, partsAll, parts, Branch.label, hkind]

@[simp] theorem spelled_groupBranch (branches : List Branch) :
    spelled (groupBranch branches) = spelled branches := by
  cases branches with
  | nil => rfl
  | cons first rest => simp [groupBranch, spelled, partsAll, parts, Branch.label]

theorem kind_ne_selector (piece : Part) : piece.kind ≠ .selector := by
  cases piece <;> exact nofun

/-- With more items after it, the item tiles its text. -/
def Item.TilesText (item : Item) : Prop :=
  ∀ joins offset rest,
    (∀ joins', Tiled (offset + width item.lexemes)
      (spelled (itemBranches joins' (offset + width item.lexemes) rest)) (written Lexeme.text (groupLexemes rest))) →
    Tiled offset (spelled (itemBranches joins offset (item :: rest)))
      (written Lexeme.text item.lexemes ++ written Lexeme.text (groupLexemes rest))

theorem tiled_items {items : List Item} (h : ∀ item ∈ items, item.TilesText) (joins : Bool)
    (offset : Nat) :
    Tiled offset (spelled (itemBranches joins offset items)) (written Lexeme.text (groupLexemes items)) := by
  induction items generalizing joins offset with
  | nil =>
    rw [itemBranches]
    exact .nil offset
  | cons item rest ih =>
    obtain ⟨hitem, hrest⟩ := List.forall_mem_cons.1 h
    rw [groupLexemes, written_append]
    exact hitem joins offset rest fun joins' => ih hrest joins' _

theorem tiled_others {others : List (List Item)} (h : ∀ group ∈ others, ∀ item ∈ group, item.TilesText)
    (offset : Nat) :
    Tiled offset (spelled (othersBranches offset others)) (written Lexeme.text (othersLexemes others)) := by
  induction others generalizing offset with
  | nil =>
    rw [othersBranches]
    exact .nil offset
  | cons group rest ih =>
    obtain ⟨hgroup, hrest⟩ := List.forall_mem_cons.1 h
    rw [othersBranches, othersLexemes, spelled_append, spelled_groupBranch, written_cons, written_append]
    exact .gap (.inr (.inl rfl)) ((tiled_items hgroup false _).append (ih hrest _))

theorem tiled_list {first : List Item} {others : List (List Item)}
    (h : ∀ group ∈ first :: others, ∀ item ∈ group, item.TilesText) (offset : Nat) :
    Tiled offset (spelled (listBranches offset first others)) (written Lexeme.text (listLexemes first others)) := by
  obtain ⟨hfirst, hothers⟩ := List.forall_mem_cons.1 h
  rw [listBranches, listLexemes, spelled_append, spelled_groupBranch, written_append]
  exact (tiled_items hfirst false offset).append (tiled_others hothers _)

theorem tilesText_blank {c : Char} (hc : isSpace c) : (Item.blank c).TilesText := by
  intro joins offset rest hrest
  have hrest : Tiled (offset + byteLength [c])
      (spelled (itemBranches false (offset + c.utf8Size) rest)) (written Lexeme.text (groupLexemes rest)) :=
    hrest false
  rw [itemBranches, spelled_append]
  split
  · have hwritten : Label.Written ⟨.combinator, " ", offset⟩ [c] := ⟨c, hc, rfl⟩
    exact .span rfl hwritten (List.cons_ne_nil _ _) hrest
  · exact .gap (.inl hc) hrest

theorem tilesText_part {piece : Part} (h : piece.WellFormed) : (Item.part piece).TilesText := by
  intro joins offset rest hrest
  have htext : written Lexeme.text (Item.part piece).lexemes = piece.text := by simp [Item.lexemes, Lexeme.text]
  have hrest := hrest (joinsAfter joins piece.sort)
  rw [width, htext] at hrest
  rw [itemBranches, partLeaf, leaf, spelled_cons_of_ne (kind_ne_selector piece), htext]
  exact .span rfl (written_of_wellFormed h offset) (text_ne_nil h) hrest

theorem tilesText_call {double : Bool} {name : List Char} {first : List Item}
    {others : List (List Item)} (hname : Word name)
    (h : ∀ group ∈ first :: others, ∀ item ∈ group, item.TilesText) :
    (Item.call double name first others).TilesText := by
  intro joins offset rest hrest
  have hwell : (Part.pseudo double name).WellFormed := hname
  have htext : written Lexeme.text (Item.call double name first others).lexemes =
      (Part.pseudo double name).text ++ '(' :: (written Lexeme.text (listLexemes first others) ++ [')']) := by
    simp [Item.lexemes, listLexemes, Lexeme.text]
  -- the arguments start after the parenthesis
  obtain ⟨inner, hinner⟩ : ∃ inner, inner = offset + byteLength (Lexeme.call double name).text :=
    ⟨_, rfl⟩
  have hparen : offset + byteLength (Part.pseudo double name).text + ('(' : Char).utf8Size = inner := by
    simp [hinner, Lexeme.text, Nat.add_assoc]
  have hafter : offset + width (Item.call double name first others).lexemes =
      inner + byteLength (written Lexeme.text (listLexemes first others)) + (')' : Char).utf8Size := by
    rw [width, htext, ← hparen]
    simp [Nat.add_assoc]
  have hclose : Tiled (inner + byteLength (written Lexeme.text (listLexemes first others)))
      (spelled (itemBranches true (offset + width (Item.call double name first others).lexemes) rest))
      (')' :: written Lexeme.text (groupLexemes rest)) :=
    .gap (.inr (.inr (.inr rfl))) (hafter ▸ hrest true)
  have hopen := (tiled_list h inner).append hclose
  rw [← hparen] at hopen
  have hall := Tiled.span rfl (written_of_wellFormed hwell offset) (text_ne_nil hwell)
    (.gap (.inr (.inr (.inl rfl))) hopen)
  rw [itemBranches_call, callBranch, spelled_cons_of_ne (by simp), htext, ← hinner, ← hparen]
  simpa [Part.kind] using hall

theorem tilesText_of_valid {item : Item} (h : item.Valid) : item.TilesText := by
  induction h with
  | blank hc => exact tilesText_blank hc
  | part hpiece => exact tilesText_part hpiece
  | emptyCall hname _ _ ih => exact tilesText_call hname (by simpa using ih)
  | call hname _ _ ih => exact tilesText_call hname ih

/-! ## Groups start at their first child -/

/-- If the branch is that of a group, it starts where its first child does. -/
def Branch.StartsAtChild : Branch → Prop
  | .node label children => label.kind = .selector →
    ∃ first rest, children = first :: rest ∧ first.label.offset = label.offset

theorem startsAtChild_groupBranch {branches : List Branch}
    (h : ∀ part ∈ partsAll branches, part.StartsAtChild) :
    ∀ part ∈ partsAll (groupBranch branches), part.StartsAtChild := by
  cases branches with
  | nil => exact h
  | cons first rest =>
    intro part hpart
    simp only [groupBranch, partsAll, parts, List.append_nil, List.mem_cons] at hpart
    rcases hpart with rfl | hpart
    · exact fun _ => ⟨first, rest, rfl, rfl⟩
    · exact h part hpart

theorem startsAtChild_cons {label : Label} {children rest : List Branch}
    (hkind : label.kind ≠ .selector) (hchildren : ∀ part ∈ partsAll children, part.StartsAtChild)
    (hrest : ∀ part ∈ partsAll rest, part.StartsAtChild) :
    ∀ part ∈ partsAll (.node label children :: rest), part.StartsAtChild := by
  intro part hpart
  simp only [partsAll, parts, List.cons_append, List.mem_cons, List.mem_append] at hpart
  rcases hpart with rfl | hpart | hpart
  · exact fun hselector => absurd hselector hkind
  · exact hchildren part hpart
  · exact hrest part hpart

theorem startsAtChild_append {first second : List Branch}
    (hfirst : ∀ part ∈ partsAll first, part.StartsAtChild)
    (hsecond : ∀ part ∈ partsAll second, part.StartsAtChild) :
    ∀ part ∈ partsAll (first ++ second), part.StartsAtChild := by
  rw [partsAll_append]
  exact List.forall_mem_append.2 ⟨hfirst, hsecond⟩

mutual

theorem startsAtChild_items : ∀ (items : List Item) (joins : Bool) (offset : Nat),
    ∀ part ∈ partsAll (itemBranches joins offset items), part.StartsAtChild
  | [], joins, offset => by
    rw [itemBranches]
    exact nofun
  | .blank c :: rest, joins, offset => by
    rw [itemBranches]
    refine startsAtChild_append ?_ (startsAtChild_items rest false _)
    split
    · exact startsAtChild_cons (by simp [Part.kind]) nofun nofun
    · exact nofun
  | .part piece :: rest, joins, offset => by
    rw [itemBranches]
    exact startsAtChild_cons (kind_ne_selector piece) nofun (startsAtChild_items rest _ _)
  | .call double name first others :: rest, joins, offset => by
    rw [itemBranches]
    refine startsAtChild_cons (by simp) ?_ (startsAtChild_items rest true _)
    exact startsAtChild_append (startsAtChild_groupBranch (startsAtChild_items first false _))
      (startsAtChild_others others _)

theorem startsAtChild_others : ∀ (others : List (List Item)) (offset : Nat),
    ∀ part ∈ partsAll (othersBranches offset others), part.StartsAtChild
  | [], offset => by
    rw [othersBranches]
    exact nofun
  | group :: rest, offset => by
    rw [othersBranches]
    exact startsAtChild_append (startsAtChild_groupBranch (startsAtChild_items group false _))
      (startsAtChild_others rest _)

end

/-! ## From branches to the tree -/

/-- What the nodes of a tree say about themselves, in document order and without the root. -/
def Tree.labels (tree : Tree) : List Label :=
  tree.walk.filterMap fun visit => tree.nodes[visit.id]?.map Node.label

theorem label_of_shows {tree : Tree} {visit : Visit} {part : Branch} (h : part.Shows tree visit) :
    tree.nodes[visit.id]?.map Node.label = some part.label := by
  obtain ⟨parent, position, hholds⟩ := h
  cases part with
  | node label children =>
    rw [hholds.1]
    rfl

theorem filterMap_label_of_shows {tree : Tree} {visits : List Visit} {parts : List Branch}
    (h : List.Forall₂ (Shows tree) visits parts) :
    (visits.filterMap fun visit => tree.nodes[visit.id]?.map Node.label) = parts.map Branch.label := by
  induction h with
  | nil => rfl
  | cons hpart _ ih => rw [List.filterMap_cons, label_of_shows hpart, List.map_cons, ih]

theorem exists_shows_of_mem {tree : Tree} {visits : List Visit} {parts : List Branch}
    (h : List.Forall₂ (Shows tree) visits parts) {visit : Visit} (hmem : visit ∈ visits) :
    ∃ part ∈ parts, part.Shows tree visit := by
  induction h with
  | nil => cases hmem
  | @cons first part _ _ hpart _ ih =>
    rcases List.mem_cons.1 hmem with rfl | hmem
    · exact ⟨part, List.mem_cons_self, hpart⟩
    · obtain ⟨other, hother, hshows⟩ := ih hmem
      exact ⟨other, List.mem_cons_of_mem _ hother, hshows⟩

/-- A group of the tree starts where its first child does. -/
theorem exists_first_of_shows {tree : Tree} {visit : Visit} {part : Branch} {node : Node}
    (h : part.Shows tree visit) (hstarts : part.StartsAtChild)
    (hnode : tree.nodes[visit.id]? = some node) (hkind : node.kind = .selector) :
    ∃ child first, (tree.children visit.id)[0]? = some child ∧ tree.nodes[child]? = some first ∧
      first.offset = node.offset := by
  have hlabel := label_of_shows h
  obtain ⟨parent, position, hholds⟩ := h
  cases part with
  | node label children =>
    rw [hnode] at hlabel
    obtain rfl : node.label = label := Option.some.inj hlabel
    obtain ⟨first, rest, rfl, hoffset⟩ := hstarts hkind
    have hchild : (tree.children visit.id)[0]? = some (visit.id + 1) := by
      rw [← Array.getElem?_toList, Tree.children_of_holds hholds]
      rfl
    cases first with
    | node label below =>
      refine ⟨visit.id + 1, _, hchild, hholds.2.1.1, ?_⟩
      exact hoffset

theorem built_of_parse {selector : String} {tree : Tree} (h : parse selector = .ok tree) :
    tree.Built := by
  obtain ⟨first, others, -, -, rfl⟩ := parse_eq_ok_iff.1 h
  exact Tree.built_graftAll .empty (show 0 < Tree.empty.size by simp) (listBranches 0 first others)

/-- The nodes of a parsed selector, apart from the root and the groups, tile the selector in document
order, and each group starts where its first child does. -/
theorem parse_tiles {selector : String} {tree : Tree} (h : parse selector = .ok tree) :
    (∃ spans, spans.map Span.label = tree.labels.filter (fun label => label.kind ≠ .selector) ∧
      Tiles 0 selector.toList spans) ∧
    ∀ (id : Nat) (node : Node), tree.nodes[id]? = some node → node.kind = .selector →
      ∃ child first, (tree.children id)[0]? = some child ∧ tree.nodes[child]? = some first ∧
        first.offset = node.offset := by
  obtain ⟨first, others, hlist, hlexemes, rfl⟩ := parse_eq_ok_iff.1 h
  have hshows := Tree.shows_walk_graftAll (listBranches 0 first others)
  have hlabels := filterMap_label_of_shows hshows
  constructor
  · have htiled := tiled_list (fun group hgroup item hitem =>
      tilesText_of_valid (hlist.items group hgroup item hitem)) 0
    obtain ⟨spans, hspans, htiles⟩ := htiled
    rw [written_of_lexemes hlexemes] at htiles
    refine ⟨spans, ?_, htiles⟩
    rw [hspans, Tree.labels, hlabels, spelled]
  · intro id node hnode hkind
    have hgrown := Tree.grown_graftAll (show 0 < Tree.empty.size by simp) (listBranches 0 first others)
    have hlinked := (built_of_parse h).linked
    have hne : id ≠ 0 := by
      intro heq
      subst heq
      rw [hgrown.parent_eq] at hnode
      cases hnode
      cases hkind
    obtain ⟨visit, hvisit, rfl⟩ :=
      List.mem_map.1 (hlinked.mem_map_walk_iff.2 ⟨hne, Tree.lt_of_getElem? hnode⟩)
    obtain ⟨part, hpart, hpartShows⟩ := exists_shows_of_mem hshows hvisit
    refine exists_first_of_shows hpartShows ?_ hnode hkind
    exact startsAtChild_append (startsAtChild_groupBranch (startsAtChild_items first false 0))
      (startsAtChild_others others _) part hpart

/-- The spans of a class, a descendant combinator and a pseudo-class with two arguments. -/
def argumentSpans : List Span :=
  [⟨⟨.className, "a", 0⟩, ['.', 'a']⟩, ⟨⟨.combinator, " ", 2⟩, [' ']⟩, ⟨⟨.pseudo, ":not", 3⟩, [':', 'n', 'o', 't']⟩,
   ⟨⟨.tag, "b", 8⟩, ['b']⟩, ⟨⟨.id, "c", 11⟩, ['#', 'c']⟩]

/-- The labels leave open only which white space the combinator is, and that is read off from the text. -/
theorem eq_argumentSpans {spans : List Span} (hlabels : spans.map Span.label = argumentSpans.map Span.label)
    (h : Tiles 0 ".a :not(b, #c)".toList spans) : spans = argumentSpans := by
  rcases spans with _ | ⟨⟨_, text₁⟩, _ | ⟨⟨_, text₂⟩, _ | ⟨⟨_, text₃⟩, _ | ⟨⟨_, text₄⟩, _ | ⟨⟨_, text₅⟩, _ | _⟩⟩⟩⟩⟩
    <;> cases hlabels
  have hwritten := h.written
  simp only [List.forall_mem_cons, List.not_mem_nil, false_imp_iff, implies_true, and_true] at hwritten
  obtain ⟨hclass, ⟨c, -, hblank⟩, hpseudo, htag, hid⟩ := hwritten
  obtain ⟨before, after, htext, hstart⟩ := h.placed ⟨⟨.combinator, " ", 2⟩, text₂⟩ (by simp)
  have hspace : c = ' ' := by
    have hown : ".a :not(b, #c)".toList = ['.', 'a'] ++ ' ' :: ":not(b, #c)".toList := by simp
    rw [hown, hblank, List.append_assoc] at htext
    have hlength : byteLength ['.', 'a'] = byteLength before := hstart.trans (Nat.zero_add _)
    obtain rfl := eq_of_byteLength_eq htext hlength
    exact (List.cons.inj (List.append_cancel_left htext)).1.symm
  simp only [Label.Written] at hclass hpseudo htag hid
  rw [hclass, hblank, hspace, hpseudo, htag, hid]
  simp [argumentSpans]

theorem parse_tiles_arguments :
    ∃ tree, parse ".a :not(b, #c)" = .ok tree ∧
      argumentSpans.map Span.label = tree.labels.filter (fun label => label.kind ≠ .selector) ∧
      Tiles 0 ".a :not(b, #c)".toList argumentSpans ∧
      ∀ (id : Nat) (node : Node), tree.nodes[id]? = some node → node.kind = .selector →
        ∃ child first, (tree.children id)[0]? = some child ∧ tree.nodes[child]? = some first ∧
          first.offset = node.offset := by
  have hlabels : (parse ".a :not(b, #c)").toOption.map (fun tree =>
      tree.labels.filter (fun label => label.kind ≠ .selector)) = some (argumentSpans.map Span.label) := by
    decide +kernel
  cases hparse : parse ".a :not(b, #c)" with
  | error fault =>
    rw [hparse] at hlabels
    cases hlabels
  | ok tree =>
    rw [hparse] at hlabels
    have hown := (Option.some.inj hlabels).symm
    obtain ⟨⟨spans, hspans, htiles⟩, hgroups⟩ := parse_tiles hparse
    obtain rfl := eq_argumentSpans (hspans.trans hown.symm) htiles
    exact ⟨tree, rfl, hown, htiles, hgroups⟩

end SelectorLint.Selector
