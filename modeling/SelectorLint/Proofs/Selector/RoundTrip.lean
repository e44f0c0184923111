import SelectorLint.Proofs.Selector.Boundaries
import SelectorLint.Proofs.Selector.Offsets
import SelectorLint.Proofs.Selector.Rendering

/-!
# Reading back what was written out

The text of the tree of a selector parses to the same tree, offsets apart (`parse_render`).

It is the text of items that can be given (`rewritten`). What has to be shown of them is that they are valid,
that they have the same branches, and that the lexer finds them again in their text. The last is where it
matters what is left out. White space between two words is left out only if it is no combinator, and then
there is no word after it. Between a pseudo-class and a word, however, empty parentheses may have been all
there was, and such trees are excluded (`Tree.Renderable`).
-/

namespace SelectorLint.Selector

open Text Grammar Branch

/-! ## The items are valid -/

theorem not_isBlank_quote {c : Char} (h : c = '"' ∨ c = '\'') : ¬isBlank c := by
  rcases h with rfl | rfl
  all_goals decide

theorem content_of_cons {c : Char} {rest : List Char} (hc : isBlank c) (h : Content (c :: rest)) :
    Content rest := by
  generalize htext : c :: rest = text at h
  cases h with
  | nil => cases htext
  | quoted hquoted _ =>
    cases hquoted with
    | mk hquote _ =>
      cases htext
      exact absurd hc (not_isBlank_quote hquote)
  | character _ _ _ tail =>
    cases htext
    exact tail

theorem content_of_concat {c : Char} {front : List Char} (hc : isBlank c) (h : Content (front ++ [c])) :
    Content front := by
  generalize htext : front ++ [c] = text at h
  induction h generalizing front with
  | nil => simp at htext
  | @quoted inner rest hquoted _ ih =>
    rcases List.eq_nil_or_concat rest with rfl | ⟨rest', last, rfl⟩
    · cases hquoted with
      | mk hquote htail =>
        have hlast := congrArg List.getLast? htext
        rw [List.getLast?_concat, List.append_nil, List.getLast?_cons, getLast?_of_quotedTail htail] at hlast
        cases hlast
        exact absurd hc (not_isBlank_quote hquote)
    · rw [List.concat_eq_append, ← List.append_assoc] at htext
      obtain ⟨rfl, heq⟩ := List.append_inj' htext rfl
      cases heq
      exact .quoted hquoted (ih List.concat_eq_append.symm)
  | @character d rest hclose hdouble hsingle tail ih =>
    cases front with
    | nil => exact .nil
    | cons e front =>
      cases htext
      exact .character hclose hdouble hsingle (ih rfl)

theorem content_trim {body : List Char} (h : Content body) : Content (trim body) := by
  obtain ⟨before, after, hbefore, hafter, hbody⟩ := exists_trim_eq body
  rw [hbody, List.append_assoc] at h
  generalize trim body = middle at h
  have hfront : Content (middle ++ after) := by
    clear hbody
    induction before with
    | nil => exact h
    | cons c before ih =>
      obtain ⟨hc, hbefore⟩ := List.forall_mem_cons.1 hbefore
      exact ih hbefore (content_of_cons hc h)
  clear h hbody
  induction after using List.reverseRecOn with
  | nil => simpa using hfront
  | append_singleton after c ih =>
    obtain ⟨hafter, hc⟩ := List.forall_mem_append.1 hafter
    rw [← List.append_assoc] at hfront
    exact ih hafter (content_of_concat (hc c (by simp)) hfront)

theorem valid_rewritten_part {piece : Part} (h : piece.WellFormed) :
    ∀ item ∈ piece.rewritten, item.Valid := by
  cases piece with
  | combinator sign =>
    have hspace : (Item.blank ' ').Valid := .blank rfl
    simp [Part.rewritten, Item.Valid.part h, hspace]
  | attr body =>
    have hbody : (Part.attr (trim body)).WellFormed := ⟨content_trim h.1, by rw [trim_trim]; exact h.2⟩
    simpa [Part.rewritten] using Item.Valid.part hbody
  | _ => simpa [Part.rewritten] using Item.Valid.part h

theorem groupFits_rewritten {items : List Item} (h : GroupFits items) : GroupFits (rewritten false items) where
  ne_nil := by
    rw [groupTags_rewritten]
    exact h.ne_nil
  fits := by
    rw [groupTags_rewritten]
    exact h.fits

theorem groupFits_rewrittenOthers {others : List (List Item)} (h : ∀ group ∈ others, GroupFits group) :
    ∀ group ∈ rewrittenOthers others, GroupFits group := by
  induction others with
  | nil => simp [rewrittenOthers]
  | cons group rest ih =>
    obtain ⟨hgroup, hrest⟩ := List.forall_mem_cons.1 h
    have hspaced : GroupFits (.blank ' ' :: rewritten false group) :=
      ⟨(groupFits_rewritten hgroup).ne_nil, (groupFits_rewritten hgroup).fits⟩
    rw [rewrittenOthers]
    exact List.forall_mem_cons.2 ⟨hspaced, ih hrest⟩

mutual

theorem valid_rewritten : ∀ (items : List Item) (joins : Bool), (∀ item ∈ items, item.Valid) →
    ∀ item ∈ rewritten joins items, item.Valid
  | [], _, _ => by simp [rewritten]
  | .blank c :: rest, joins, h => by
    have hrest := valid_rewritten rest false (List.forall_mem_cons.1 h).2
    rw [rewritten]
    refine List.forall_mem_append.2 ⟨?_, hrest⟩
    split
    · simpa using Item.Valid.blank rfl
    · simp
  | .part piece :: rest, joins, h => by
    obtain ⟨hpiece, h⟩ := List.forall_mem_cons.1 h
    have hrest := valid_rewritten rest (joinsAfter joins piece.sort) h
    rw [rewritten]
    exact List.forall_mem_append.2 ⟨valid_rewritten_part (wellFormed_of_valid hpiece), hrest⟩
  | .call double name first others :: rest, joins, h => by
    obtain ⟨hcall, h⟩ := List.forall_mem_cons.1 h
    obtain ⟨hname, hgroups, hitems⟩ := hcall.of_call
    obtain ⟨hfirstItems, hothersItems⟩ := List.forall_mem_cons.1 hitems
    have hfirst := valid_rewritten first false hfirstItems
    have hothers := valid_rewrittenOthers others hothersItems
    have hrest := valid_rewritten rest true h
    rw [rewritten]
    refine List.forall_mem_cons.2 ⟨?_, hrest⟩
    rcases hgroups with ⟨hnone, -⟩ | hfits
    · rw [if_pos hnone]
      exact .part hname
    · obtain ⟨hfirstFits, hothersFits⟩ := List.forall_mem_cons.1 hfits
      rw [if_neg hfirstFits.ne_nil]
      exact .call hname
        (List.forall_mem_cons.2 ⟨groupFits_rewritten hfirstFits, groupFits_rewrittenOthers hothersFits⟩)
        (List.forall_mem_cons.2 ⟨hfirst, hothers⟩)

theorem valid_rewrittenOthers : ∀ (others : List (List Item)),
    (∀ group ∈ others, ∀ item ∈ group, item.Valid) →
    ∀ group ∈ rewrittenOthers others, ∀ item ∈ group, item.Valid
  | [], _ => by simp [rewrittenOthers]
  | group :: rest, h => by
    obtain ⟨hgroup, h⟩ := List.forall_mem_cons.1 h
    have hfirst := valid_rewritten group false hgroup
    have hrest := valid_rewrittenOthers rest h
    rw [rewrittenOthers]
    exact List.forall_mem_cons.2 ⟨List.forall_mem_cons.2 ⟨.blank rfl, hfirst⟩, hrest⟩

end

theorem validList_rewritten {first : List Item} {others : List (List Item)} (h : ValidList first others) :
    ValidList (rewritten false first) (rewrittenOthers others) := by
  obtain ⟨hfirstFits, hothersFits⟩ := List.forall_mem_cons.1 h.fits
  obtain ⟨hfirst, hothers⟩ := List.forall_mem_cons.1 h.items
  exact ⟨List.forall_mem_cons.2 ⟨groupFits_rewritten hfirstFits, groupFits_rewrittenOthers hothersFits⟩,
    List.forall_mem_cons.2 ⟨valid_rewritten first false hfirst, valid_rewrittenOthers others hothers⟩⟩

/-! ## The items have the same branches -/

/-- Branches that only differ in their offsets. -/
def Alike (first second : List Branch) : Prop :=
  relocateAll (fun _ => 0) first = relocateAll (fun _ => 0) second

theorem Alike.cons {label other : Label} {children others first second : List Branch}
    (hkind : label.kind = other.kind) (hvalue : label.value = other.value) (hchildren : Alike children others)
    (h : Alike first second) : Alike (.node label children :: first) (.node other others :: second) := by
  rw [Alike, relocateAll, relocateAll, h, relocate, relocate, hchildren, hkind, hvalue]

theorem Alike.append {first second more others : List Branch} (h : Alike first second)
    (hmore : Alike more others) : Alike (first ++ more) (second ++ others) := by
  rw [Alike, relocateAll_append, relocateAll_append, h, hmore]

theorem Alike.groupBranch {first second : List Branch} (h : Alike first second) :
    Alike (groupBranch first) (groupBranch second) := by
  rw [Alike, relocateAll_groupBranch, relocateAll_groupBranch, h]

/-- A part that is written out becomes the same node, and leaves white space after it what it was. -/
theorem itemBranches_rewritten_part (piece : Part) (joins : Bool) (offset : Nat) (rest : List Item) :
    ∃ start after, itemBranches joins offset (piece.rewritten ++ rest) =
      .leaf ⟨piece.kind, piece.value, start⟩ :: itemBranches (joinsAfter joins piece.sort) after rest := by
  have hplain : piece.rewritten = [.part piece] →
      ∃ start after, itemBranches joins offset (piece.rewritten ++ rest) =
        .leaf ⟨piece.kind, piece.value, start⟩ :: itemBranches (joinsAfter joins piece.sort) after rest := by
    intro heq
    refine ⟨offset, offset + byteLength piece.text, ?_⟩
    rw [heq, List.singleton_append, itemBranches]
    rfl
  cases piece with
  | combinator sign =>
    refine ⟨offset + ' '.utf8Size,
      offset + ' '.utf8Size + byteLength (Part.combinator sign).text + ' '.utf8Size, ?_⟩
    rw [Part.rewritten, List.cons_append, List.cons_append, List.cons_append, List.nil_append, itemBranches,
      itemBranches, itemBranches]
    simp [meetsComponent, Part.sort, joinsAfter, partLeaf]
  | attr body =>
    refine ⟨offset, offset + byteLength (Part.attr (trim body)).text, ?_⟩
    rw [Part.rewritten, List.singleton_append, itemBranches]
    simp only [partLeaf, Part.value, trim_trim]
    rfl
  | _ => exact hplain rfl

mutual

/-- Items and what they are written out as have the same branches. White space that was left out may make a
difference to whether later white space joins, but not where a component follows. -/
theorem alike_rewritten : ∀ (items : List Item) (joins joins' : Bool) (offset offset' : Nat),
    (∀ item ∈ items, item.Valid) → (joins' = joins ∨ meetsComponent items = false) →
      Alike (itemBranches joins' offset' (rewritten joins items)) (itemBranches joins offset items)
  | [], _, _, _, _, _, _ => by
    rw [rewritten, itemBranches, itemBranches]
    rfl
  | .blank c :: rest, joins, joins', offset, offset', hvalid, hjoins => by
    have hvalid := (List.forall_mem_cons.1 hvalid).2
    rw [meetsComponent] at hjoins
    rw [rewritten, itemBranches]
    by_cases hspace : (joins && meetsComponent rest) = true
    · rw [if_pos hspace, if_pos hspace]
      rw [Bool.and_eq_true] at hspace
      have hsame : joins' = joins := hjoins.resolve_right (by simp [hspace.2])
      rw [List.singleton_append, itemBranches, hsame, meetsComponent_rewritten, hspace.1, hspace.2]
      exact .append (.cons rfl rfl rfl rfl) (alike_rewritten rest false false _ _ hvalid (.inl rfl))
    · rw [if_neg hspace, if_neg hspace]
      refine alike_rewritten rest false joins' _ _ hvalid ?_
      rcases hjoins with rfl | hnone
      · cases joins' with
        | false => exact .inl rfl
        | true => exact .inr (by simpa using hspace)
      · exact .inr hnone
  | .part piece :: rest, joins, joins', offset, offset', hvalid, hjoins => by
    have hvalid := (List.forall_mem_cons.1 hvalid).2
    obtain ⟨start, after, heq⟩ := itemBranches_rewritten_part piece joins' offset'
      (rewritten (joinsAfter joins piece.sort) rest)
    rw [rewritten, heq, itemBranches]
    refine .cons rfl rfl rfl (alike_rewritten rest _ _ _ _ hvalid ?_)
    rw [meetsComponent] at hjoins
    cases hsort : piece.sort with
    | comment =>
      rw [hsort] at hjoins
      exact hjoins
    | combinator | component => exact .inl rfl
  | .call double name first others :: rest, joins, joins', offset, offset', hvalid, hjoins => by
    obtain ⟨hcall, hvalid⟩ := List.forall_mem_cons.1 hvalid
    obtain ⟨-, hgroups, hitems⟩ := hcall.of_call
    obtain ⟨hfirstItems, hothersItems⟩ := List.forall_mem_cons.1 hitems
    have hfirst := fun start start' =>
      alike_rewritten first false false start start' hfirstItems (.inl rfl)
    have hothers := fun start start' => alike_rewrittenOthers others start start' hothersItems
    have hrest := fun start start' => alike_rewritten rest true true start start' hvalid (.inl rfl)
    rw [rewritten, itemBranches_call]
    rcases hgroups with ⟨hnone, rfl⟩ | hfits
    · rw [if_pos hnone, itemBranches, callBranch, listBranches_of_groupTags_eq_nil hnone]
      exact .cons rfl rfl rfl (hrest _ _)
    · rw [if_neg (hfits first List.mem_cons_self).ne_nil, itemBranches_call]
      exact .cons rfl rfl ((hfirst _ _).groupBranch.append (hothers _ _)) (hrest _ _)

theorem alike_rewrittenOthers : ∀ (others : List (List Item)) (offset offset' : Nat),
    (∀ group ∈ others, ∀ item ∈ group, item.Valid) →
      Alike (othersBranches offset' (rewrittenOthers others)) (othersBranches offset others)
  | [], _, _, _ => by
    rw [rewrittenOthers, othersBranches, othersBranches]
    rfl
  | group :: rest, offset, offset', hvalid => by
    obtain ⟨hgroup, hvalid⟩ := List.forall_mem_cons.1 hvalid
    have hfirst := fun start start' =>
      alike_rewritten group false false start start' hgroup (.inl rfl)
    rw [rewrittenOthers, othersBranches, othersBranches, itemBranches]
    exact (hfirst _ _).groupBranch.append (alike_rewrittenOthers rest _ _ hvalid)

end

theorem alike_listBranches {first : List Item} {others : List (List Item)} (h : ValidList first others) :
    Alike (listBranches 0 (rewritten false first) (rewrittenOthers others)) (listBranches 0 first others) := by
  obtain ⟨hfirst, hothers⟩ := List.forall_mem_cons.1 h.items
  exact (alike_rewritten first false false 0 0 hfirst (.inl rfl)).groupBranch.append
    (alike_rewrittenOthers others _ _ hothers)

/-! ## Pseudo-classes and tags -/

namespace Branch

mutual

/-- Below the branch, no pseudo-class without arguments stands right before a tag. -/
def Parted : Branch → Prop
  | node _ children => PartedAll children

/-- In and below the branches, no pseudo-class without arguments stands right before a tag. -/
def PartedAll : List Branch → Prop
  | [] => True
  | branch :: rest => branch.Parted ∧
    (∀ label, branch = leaf label → label.kind = .pseudo →
      ∀ next ∈ rest.head?, next.label.kind ≠ .tag) ∧
    PartedAll rest

end

theorem partedAll_of_append {first second : List Branch} (h : PartedAll (first ++ second)) :
    PartedAll second := by
  induction first with
  | nil => exact h
  | cons branch rest ih => exact ih h.2.2

end Branch

theorem partedAll_of_groupBranch {branches more : List Branch} (h : PartedAll (groupBranch branches ++ more)) :
    PartedAll branches := by
  cases branches with
  | nil => trivial
  | cons child rest => exact h.1

namespace Tree

variable {tree : Tree}

mutual

theorem parted_of_holds (hlinked : tree.Linked) (hrenderable : tree.Renderable) {parent position id : Nat} :
    ∀ {branch : Branch}, branch.Holds tree parent position id → branch.Parted
  | .node _ _, h => partedAll_of_holdAll hlinked hrenderable h.2

theorem partedAll_of_holdAll (hlinked : tree.Linked) (hrenderable : tree.Renderable)
    {parent position start : Nat} : ∀ {branches : List Branch},
      HoldAll tree parent position start branches → PartedAll branches
  | [], _ => trivial
  | branch :: rest, h => by
    refine ⟨parted_of_holds hlinked hrenderable h.1, ?_, partedAll_of_holdAll hlinked hrenderable h.2⟩
    rintro label rfl hpseudo next hnext
    obtain ⟨others, rfl⟩ := List.head?_eq_some_iff.1 hnext
    obtain ⟨hself, hrest⟩ := h
    cases next with
    | node other children =>
      have hnone : tree.children start = #[] := Array.toList_eq_nil_iff.1 (children_of_holds hself)
      have hplace := hlinked.up start _ parent hself.1 rfl
      have hafter := hlinked.up _ _ parent hrest.1.1 rfl
      have hsibling := hlinked.next?_eq_some_iff.2 ⟨parent, position, hplace, hafter⟩
      have hkind : tree.kind? start = some .pseudo := by
        rw [kind?_eq_map_label?, label?_of_holds hself]
        exact congrArg some hpseudo
      have htag := hrenderable start _ hkind hnone hsibling
      rw [kind?_eq_map_label?, label?_of_holds hrest.1] at htag
      exact fun heq => htag (congrArg some heq)

end

end Tree

/-! ## The lexemes are found again -/

section Chain

open Lexeme

theorem isChain_cons_of_ne {lexeme : Lexeme} (hword : lexeme.endsInWord = false)
    (hsign : lexeme ≠ .part (.combinator .child)) {rest : List Lexeme} (h : rest.IsChain Apart) :
    (lexeme :: rest).IsChain Apart := by
  refine List.isChain_cons.2 ⟨fun next _ => ⟨fun hends => ?_, fun heq => absurd heq hsign⟩, h⟩
  rw [hword] at hends
  cases hends

/-- A comma and a closing parenthesis are read apart from all that is before them. -/
theorem isChain_append_of_head {front back : List Lexeme} (hfront : front.IsChain Apart)
    (hback : back.IsChain Apart) (hhead : ∀ next ∈ back.head?, next = .comma ∨ next = .close) :
    (front ++ back).IsChain Apart := by
  refine hfront.append hback fun last _ next hnext => ?_
  rcases hhead next hnext with rfl | rfl
  all_goals exact ⟨fun _ _ => by simp, fun _ _ => by simp⟩

theorem head?_othersLexemes (others : List (List Item)) :
    ∀ next ∈ (othersLexemes others).head?, next = .comma ∨ next = .close := by
  cases others with
  | nil => simp [othersLexemes]
  | cons group rest => simp [othersLexemes]

/-- A part that is written out before lexemes that do not go on with its word. -/
theorem isChain_rewritten_part (piece : Part) {rest : List Lexeme} (h : rest.IsChain Apart)
    (hword : (Lexeme.part piece).endsInWord → ∀ name, rest.head? ≠ some (.part (.tag name))) :
    (groupLexemes piece.rewritten ++ rest).IsChain Apart := by
  have hplain : piece.rewritten = [.part piece] → (∀ sign, piece ≠ .combinator sign) →
      (groupLexemes piece.rewritten ++ rest).IsChain Apart := by
    intro heq hsign
    rw [heq]
    refine List.isChain_cons.2 ⟨fun next hnext => ⟨fun hends name htag => ?_, fun hchild => ?_⟩, h⟩
    · exact hword hends name (hnext.trans (congrArg some htag))
    · exact absurd (Lexeme.part.inj hchild) (hsign .child)
  cases piece with
  | combinator sign =>
    refine isChain_cons_of_ne rfl (by simp) (List.isChain_cons.2 ⟨fun next hnext => ?_, ?_⟩)
    · cases hnext
      exact ⟨fun _ _ => by simp, fun _ _ => by simp⟩
    · exact isChain_cons_of_ne rfl (by simp) h
  | attr body => exact isChain_cons_of_ne rfl (by simp) h
  | _ => exact hplain rfl (by simp)

theorem exists_cons_of_head? {items : List Item} {name : List Char}
    (h : (groupLexemes items).head? = some (.part (.tag name))) :
    ∃ rest, items = .part (.tag name) :: rest := by
  cases items with
  | nil => cases h
  | cons item rest =>
    cases item with
    | blank c => cases h
    | part piece =>
      cases h
      exact ⟨rest, rfl⟩
    | call double name first others => cases h

/-- After a component, what is written out starts with a tag only if the items do. White space before a tag
is a combinator there. -/
theorem exists_cons_of_head?_rewritten {items : List Item} {name : List Char}
    (h : (groupLexemes (rewritten true items)).head? = some (.part (.tag name))) :
    ∃ rest, items = .part (.tag name) :: rest := by
  obtain ⟨others, heq⟩ := exists_cons_of_head? h
  cases items with
  | nil =>
    rw [rewritten] at heq
    cases heq
  | cons item rest =>
    cases item with
    | blank c =>
      rw [rewritten] at heq
      split at heq
      · cases heq
      next hspace =>
        have hmeets : meetsComponent rest = true := by
          rw [List.nil_append] at heq
          rw [← meetsComponent_rewritten rest false, heq]
          rfl
        exact absurd hmeets (by simpa using hspace)
    | part piece =>
      rw [rewritten] at heq
      cases piece <;> cases heq
      exact ⟨rest, rfl⟩
    | call double name first others =>
      rw [rewritten] at heq
      split at heq
      all_goals cases heq

theorem sort_of_endsInWord {piece : Part} (h : (Lexeme.part piece).endsInWord) : piece.sort = .component := by
  cases piece with
  | comment | combinator | descendant => cases h
  | _ => rfl

/-- A part that ends in a word and comes before items. -/
theorem head?_rewritten_ne_tag {lexeme : Lexeme} {items : List Item} (hword : lexeme.endsInWord)
    (h : (lexeme :: groupLexemes items).IsChain KeepsWord) (name : List Char) :
    (groupLexemes (rewritten true items)).head? ≠ some (.part (.tag name)) := by
  intro hhead
  obtain ⟨rest, rfl⟩ := exists_cons_of_head?_rewritten hhead
  exact (List.isChain_cons.1 h).1 _ rfl hword name rfl

mutual

/-- No word is cut in two or goes on in what the items are written out as. -/
theorem isChain_rewritten : ∀ (items : List Item) (joins : Bool) (offset : Nat),
    (∀ item ∈ items, item.Valid) → (groupLexemes items).IsChain KeepsWord →
    PartedAll (itemBranches joins offset items) →
      (groupLexemes (rewritten joins items)).IsChain Apart
  | [], _, _, _, _, _ => by
    rw [rewritten]
    exact .nil
  | .blank c :: rest, joins, offset, hvalid, hchain, hparted => by
    have hvalid := (List.forall_mem_cons.1 hvalid).2
    have hchain := (List.isChain_cons.1 hchain).2
    rw [itemBranches] at hparted
    have hrest := isChain_rewritten rest false _ hvalid hchain (partedAll_of_append hparted)
    rw [rewritten]
    split
    · exact isChain_cons_of_ne rfl (by simp) hrest
    · exact hrest
  | .part piece :: rest, joins, offset, hvalid, hchain, hparted => by
    have hvalid := (List.forall_mem_cons.1 hvalid).2
    rw [itemBranches] at hparted
    have hrest := isChain_rewritten rest _ _ hvalid (List.isChain_cons.1 hchain).2 hparted.2.2
    rw [rewritten, groupLexemes_append]
    refine isChain_rewritten_part piece hrest fun hends => ?_
    rw [sort_of_endsInWord hends, joinsAfter]
    exact head?_rewritten_ne_tag hends hchain
  | .call double name first others :: rest, joins, offset, hvalid, hchain, hparted => by
    obtain ⟨hcall, hvalid⟩ := List.forall_mem_cons.1 hvalid
    obtain ⟨-, hgroups, hitems⟩ := hcall.of_call
    obtain ⟨hfirstItems, hothersItems⟩ := List.forall_mem_cons.1 hitems
    rw [groupLexemes, Item.lexemes] at hchain
    obtain ⟨hinner, hafter, -⟩ := List.isChain_append.1 hchain
    have hlist := ((List.isChain_cons.1 hinner).2).left_of_append
    rw [itemBranches_call] at hparted
    have harguments : PartedAll (listBranches _ first others) := hparted.1
    have hfirst := isChain_rewritten first false _ hfirstItems hlist.left_of_append
      (partedAll_of_groupBranch harguments)
    have hothers := isChain_rewrittenOthers others _ hothersItems hlist.right_of_append
      (partedAll_of_append harguments)
    have hrest := isChain_rewritten rest true _ hvalid hafter hparted.2.2
    rw [rewritten]
    rcases hgroups with ⟨hnone, rfl⟩ | hfits
    · rw [if_pos hnone]
      refine isChain_rewritten_part (.pseudo double name) hrest fun _ tag htag => ?_
      obtain ⟨more, rfl⟩ := exists_cons_of_head?_rewritten htag
      rw [callBranch, listBranches_of_groupTags_eq_nil hnone, itemBranches] at hparted
      exact hparted.2.1 _ rfl rfl _ rfl rfl
    · rw [if_neg (hfits first List.mem_cons_self).ne_nil, groupLexemes, Item.lexemes, List.cons_append,
        List.append_assoc, List.append_assoc]
      refine isChain_cons_of_ne rfl (by simp) (isChain_append_of_head hfirst ?_ ?_)
      · exact isChain_append_of_head hothers (isChain_cons_of_ne rfl (by simp) hrest) (by simp)
      · cases others with
        | nil => simp [rewrittenOthers, othersLexemes]
        | cons group others => simp [rewrittenOthers, othersLexemes]

theorem isChain_rewrittenOthers : ∀ (others : List (List Item)) (offset : Nat),
    (∀ group ∈ others, ∀ item ∈ group, item.Valid) → (othersLexemes others).IsChain KeepsWord →
    PartedAll (othersBranches offset others) →
      (othersLexemes (rewrittenOthers others)).IsChain Apart
  | [], _, _, _, _ => by
    rw [rewrittenOthers]
    exact .nil
  | group :: rest, offset, hvalid, hchain, hparted => by
    obtain ⟨hgroup, hvalid⟩ := List.forall_mem_cons.1 hvalid
    rw [othersLexemes] at hchain
    have hlist := (List.isChain_cons.1 hchain).2
    rw [othersBranches] at hparted
    have hfirst := isChain_rewritten group false _ hgroup hlist.left_of_append
      (partedAll_of_groupBranch hparted)
    have hrest := isChain_rewrittenOthers rest _ hvalid hlist.right_of_append (partedAll_of_append hparted)
    rw [rewrittenOthers, othersLexemes]
    refine isChain_cons_of_ne rfl (by simp) (isChain_append_of_head ?_ hrest (head?_othersLexemes _))
    exact isChain_cons_of_ne rfl (by simp) hfirst

end

theorem isChain_listLexemes {first : List Item} {others : List (List Item)} (hlist : ValidList first others)
    (hchain : (listLexemes first others).IsChain KeepsWord)
    (hparted : PartedAll (listBranches 0 first others)) :
    (listLexemes (rewritten false first) (rewrittenOthers others)).IsChain Apart := by
  obtain ⟨hfirstItems, hothersItems⟩ := List.forall_mem_cons.1 hlist.items
  have hfirst := isChain_rewritten first false 0 hfirstItems hchain.left_of_append
    (partedAll_of_groupBranch hparted)
  have hothers := isChain_rewrittenOthers others _ hothersItems hchain.right_of_append
    (partedAll_of_append hparted)
  exact isChain_append_of_head hfirst hothers (head?_othersLexemes _)

end Chain

mutual

theorem wellFormed_groupLexemes : ∀ items : List Item, (∀ item ∈ items, item.Valid) →
    ∀ lexeme ∈ groupLexemes items, lexeme.WellFormed
  | [], _ => by simp [groupLexemes]
  | item :: rest, h => by
    obtain ⟨hitem, h⟩ := List.forall_mem_cons.1 h
    rw [groupLexemes]
    refine List.forall_mem_append.2 ⟨?_, wellFormed_groupLexemes rest h⟩
    match item, hitem with
    | .blank c, .blank hc => simpa [Item.lexemes, Lexeme.WellFormed] using hc
    | .part piece, .part hpiece => simpa [Item.lexemes, Lexeme.WellFormed] using hpiece
    | .call double name first others, hcall =>
      obtain ⟨hname, -, hitems⟩ := hcall.of_call
      obtain ⟨hfirst, hothers⟩ := List.forall_mem_cons.1 hitems
      rw [Item.lexemes, List.append_assoc]
      refine List.forall_mem_cons.2 ⟨hname, List.forall_mem_append.2 ⟨wellFormed_groupLexemes first hfirst,
        List.forall_mem_append.2 ⟨wellFormed_othersLexemes others hothers, ?_⟩⟩⟩
      simp [Lexeme.WellFormed]

theorem wellFormed_othersLexemes : ∀ others : List (List Item),
    (∀ group ∈ others, ∀ item ∈ group, item.Valid) →
    ∀ lexeme ∈ othersLexemes others, lexeme.WellFormed
  | [], _ => by simp [othersLexemes]
  | group :: rest, h => by
    obtain ⟨hgroup, h⟩ := List.forall_mem_cons.1 h
    rw [othersLexemes]
    exact List.forall_mem_cons.2 ⟨trivial,
      List.forall_mem_append.2 ⟨wellFormed_groupLexemes group hgroup, wellFormed_othersLexemes rest h⟩⟩

end

theorem wellFormed_listLexemes {first : List Item} {others : List (List Item)} (h : ValidList first others) :
    ∀ lexeme ∈ listLexemes first others, lexeme.WellFormed := by
  obtain ⟨hfirst, hothers⟩ := List.forall_mem_cons.1 h.items
  exact List.forall_mem_append.2 ⟨wellFormed_groupLexemes first hfirst, wellFormed_othersLexemes others hothers⟩

/-! ## The tree -/

/-- A tree that was parsed and is written out parses again, to the same nodes with the same numbers, kinds,
values, parents and child lists. Only their offsets may differ. -/
theorem parse_render {selector : String} {tree : Tree} (h : parse selector = .ok tree)
    (hrenderable : tree.Renderable) :
    ∃ again, parse tree.render = .ok again ∧
      again.relocate (fun _ => 0) = tree.relocate (fun _ => 0) := by
  have hlinked := (built_of_parse h).linked
  obtain ⟨first, others, hlist, hlexemes, rfl⟩ := parse_eq_ok_iff.1 h
  have hgrown := Tree.grown_graftAll (show 0 < Tree.empty.size by simp) (listBranches 0 first others)
  have hparted := Tree.partedAll_of_holdAll hlinked hrenderable hgrown.holds
  obtain ⟨-, hwell, hseparate⟩ := lexemes_eq_ok_iff.1 hlexemes
  have hagain := validList_rewritten hlist
  have hchain := isChain_listLexemes hlist (isChain_of_separate hwell hseparate) hparted
  refine ⟨_, parse_eq_ok_iff.2 ⟨_, _, hagain, ?_, rfl⟩, ?_⟩
  · rw [render_eq hlist, String.toList_ofList]
    have hwellAgain := wellFormed_listLexemes hagain
    exact lexemes_written hwellAgain (separate_of_isChain hwellAgain hchain)
  · rw [Tree.relocate_graftAll, Tree.relocate_graftAll]
    exact congrArg (Tree.graftAll _ 0) (alike_listBranches hlist)

/-- Arguments, comments, an attribute with blanks around it, and parentheses with nothing in them. -/
theorem parse_render_arguments : ∃ tree again,
    parse "> a/**/ b:not( .c ,d\te )[ f ] + :g( ).h" = .ok tree ∧ tree.Renderable ∧
      tree.render = " > a/**/ b:not(.c, d e)[f] + :g.h" ∧ parse tree.render = .ok again ∧
      again.relocate (fun _ => 0) = tree.relocate (fun _ => 0) := by
  have hok : (parse "> a/**/ b:not( .c ,d\te )[ f ] + :g( ).h").toOption.any fun tree =>
      tree.Renderable ∧ tree.render = " > a/**/ b:not(.c, d e)[f] + :g.h" := by decide +kernel
  cases hparse : parse "> a/**/ b:not( .c ,d\te )[ f ] + :g( ).h" with
  | error fault =>
    rw [hparse] at hok
    cases hok
  | ok tree =>
    rw [hparse] at hok
    obtain ⟨hrenderable, htext⟩ := of_decide_eq_true hok
    obtain ⟨again, hagain, hsame⟩ := parse_render hparse hrenderable
    exact ⟨tree, again, rfl, hrenderable, htext, hagain, hsame⟩

end SelectorLint.Selector
