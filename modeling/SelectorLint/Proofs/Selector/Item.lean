import SelectorLint.Proofs.Selector.Lexing

/-!
# Items of selectors

The lexemes of a selector as a nested structure: a list of groups, a group as a list of items, and an
item that is a pseudo-class with parentheses holds a list of groups again. A list of groups is its first
group and the others, each of which has a comma in front, so that there is no empty list.

`Item.Valid` says which items are selectors. `Accepts` recognises lexemes from left to right, as the
assembly of trees does, but keeps only what decides on acceptance. What it accepts is the lexemes of a
valid list (`exists_list_of_accepts`): this is where matching parentheses are found.
-/

namespace SelectorLint.Selector

open Text Grammar

/-- What stands in a group. -/
inductive Item where
  | blank (c : Char)
  | part (part : Part)
  /-- A pseudo-class with what stands in its parentheses. -/
  | call (double : Bool) (name : List Char) (first : List Item) (others : List (List Item))

mutual

/-- The lexemes of an item. -/
def Item.lexemes : Item → List Lexeme
  | .blank c => [.blank c]
  | .part piece => [.part piece]
  | .call double name first others =>
    .call double name :: (groupLexemes first ++ othersLexemes others ++ [.close])

/-- The lexemes of a group. -/
def groupLexemes : List Item → List Lexeme
  | [] => []
  | item :: rest => item.lexemes ++ groupLexemes rest

/-- The lexemes of the groups after the first. -/
def othersLexemes : List (List Item) → List Lexeme
  | [] => []
  | group :: rest => .comma :: (groupLexemes group ++ othersLexemes rest)

end

/-- The lexemes of a list of groups. -/
def listLexemes (first : List Item) (others : List (List Item)) : List Lexeme :=
  groupLexemes first ++ othersLexemes others

/-- The sort of item that a part is. -/
def Part.sort : Part → Tag
  | .comment _ => .comment
  | .combinator _ => .combinator
  | _ => .component

/-- The sort of an item; white space has none. -/
def Item.sort? : Item → Option Tag
  | .blank _ => none
  | .part piece => some piece.sort
  | .call _ _ _ _ => some .component

/-- The sorts of the items of a group, in order. -/
def groupTags (items : List Item) : List Tag := items.filterMap Item.sort?

/-- There is something in the group, and its combinators are separated. -/
structure GroupFits (items : List Item) : Prop where
  ne_nil : groupTags items ≠ []
  fits : fits false (groupTags items)

/-- The item is one of a selector. -/
inductive Item.Valid : Item → Prop where
  | blank {c} (hc : isSpace c) : Valid (.blank c)
  | part {piece} (hpiece : piece.WellFormed) : Valid (.part piece)
  | emptyCall {double name first} (hname : Word name) (hnone : groupTags first = [])
      (hitems : ∀ item ∈ first, Valid item) : Valid (.call double name first [])
  | call {double name first others} (hname : Word name)
      (hfits : ∀ group ∈ first :: others, GroupFits group)
      (hitems : ∀ group ∈ first :: others, ∀ item ∈ group, Valid item) :
      Valid (.call double name first others)

/-- The groups make up a selector list. -/
structure ValidList (first : List Item) (others : List (List Item)) : Prop where
  fits : ∀ group ∈ first :: others, GroupFits group
  items : ∀ group ∈ first :: others, ∀ item ∈ group, item.Valid

@[simp] theorem groupTags_blank (c : Char) (rest : List Item) :
    groupTags (.blank c :: rest) = groupTags rest := rfl

@[simp] theorem groupTags_part (piece : Part) (rest : List Item) :
    groupTags (.part piece :: rest) = piece.sort :: groupTags rest := rfl

@[simp] theorem groupTags_call (double : Bool) (name : List Char) (first : List Item)
    (others : List (List Item)) (rest : List Item) :
    groupTags (.call double name first others :: rest) = .component :: groupTags rest := rfl

theorem ValidList.cons {group first : List Item} {others : List (List Item)}
    (h : ValidList first others) (hfits : GroupFits group) (hitems : ∀ item ∈ group, item.Valid) :
    ValidList group (first :: others) := by
  constructor
  · exact List.forall_mem_cons.2 ⟨hfits, h.fits⟩
  · exact List.forall_mem_cons.2 ⟨hitems, h.items⟩

/-! ## Recognition from left to right -/

/-- How far the list that is being read has come. -/
inductive Progress where
  /-- Nothing has been read of it but white space. -/
  | fresh
  /-- There was a comma, and nothing since. -/
  | separated
  | begun
  /-- The group has begun, and its last item, comments apart, is a combinator. -/
  | combined
  deriving DecidableEq, Repr

namespace Progress

/-- The group may end here. -/
def isEnded : Progress → Bool
  | fresh | separated => false
  | begun | combined => true

/-- A combinator may not follow. -/
def isCombined : Progress → Bool
  | combined => true
  | fresh | separated | begun => false

/-- An item of the group. -/
def take : Progress → Tag → Option Progress
  | _, .component => some begun
  | combined, .comment => some combined
  | _, .comment => some begun
  | combined, .combinator => none
  | _, .combinator => some combined

theorem fits_cons_of_take {before after : Progress} {tag : Tag} {tags : List Tag}
    (h : before.take tag = some after) (htags : fits after.isCombined tags) :
    fits before.isCombined (tag :: tags) := by
  cases before <;> cases tag <;> cases h <;> exact htags

end Progress

/-- The lexemes complete the list that is being read and `depth` lists around it. -/
def Accepts : Progress → Nat → List Lexeme → Prop
  | progress, depth, [] => progress.isEnded ∧ depth = 0
  | progress, depth, .blank _ :: rest => Accepts progress depth rest
  | progress, depth, .comma :: rest => progress.isEnded ∧ Accepts .separated depth rest
  | progress, depth, .close :: rest =>
    (progress.isEnded ∨ progress = .fresh) ∧ ∃ outer, depth = outer + 1 ∧ Accepts .begun outer rest
  | _, depth, .call _ _ :: rest => Accepts .fresh (depth + 1) rest
  | progress, depth, .part piece :: rest =>
    ∃ after, progress.take piece.sort = some after ∧ Accepts after depth rest

/-- What comes after a list at this depth: nothing, or a parenthesis and more of the list around it. -/
def Follows : Nat → List Lexeme → Prop
  | 0, rest => rest = []
  | outer + 1, rest => ∃ more, rest = .close :: more ∧ Accepts .begun outer more

/-- The groups continue a list that has come as far as `progress`, and `rest` comes after them. -/
structure Continues (progress : Progress) (depth : Nat) (first : List Item)
    (others : List (List Item)) (rest : List Lexeme) : Prop where
  items : ∀ item ∈ first, item.Valid
  fits : Grammar.fits progress.isCombined (groupTags first)
  others_fit : ∀ group ∈ others, GroupFits group
  others_items : ∀ group ∈ others, ∀ item ∈ group, item.Valid
  /-- The first group is not empty, unless there is nothing at all in the parentheses. -/
  ended : progress.isEnded ∨ groupTags first ≠ [] ∨
    progress = .fresh ∧ others = [] ∧ groupTags first = [] ∧ 0 < depth
  follows : Follows depth rest

namespace Continues

variable {progress after : Progress} {depth : Nat} {first : List Item} {others : List (List Item)}
  {rest : List Lexeme}

theorem blank {c : Char} (h : Continues progress depth first others rest) (hc : isSpace c) :
    Continues progress depth (.blank c :: first) others rest :=
  { h with items := List.forall_mem_cons.2 ⟨.blank hc, h.items⟩ }

/-- An item in front, which brings the list from `progress` to `after`. -/
theorem item {item : Item} {tag : Tag} (h : Continues after depth first others rest)
    (hvalid : item.Valid) (htag : item.sort? = some tag) (htake : progress.take tag = some after) :
    Continues progress depth (item :: first) others rest := by
  have htags : groupTags (item :: first) = tag :: groupTags first := List.filterMap_cons_some htag
  refine ⟨List.forall_mem_cons.2 ⟨hvalid, h.items⟩, ?_, h.others_fit, h.others_items, ?_, h.follows⟩
  · rw [htags]
    exact Progress.fits_cons_of_take htake h.fits
  · rw [htags]
    exact .inr (.inl (List.cons_ne_nil _ _))

/-- A comma in front. -/
theorem comma (h : Continues .separated depth first others rest) (hended : progress.isEnded) :
    Continues progress depth [] (first :: others) rest := by
  have hne : groupTags first ≠ [] := by
    rcases h.ended with hended | hne | ⟨hfresh, -⟩
    · cases hended
    · exact hne
    · cases hfresh
  exact ⟨by simp, rfl, List.forall_mem_cons.2 ⟨⟨hne, h.fits⟩, h.others_fit⟩,
    List.forall_mem_cons.2 ⟨h.items, h.others_items⟩, .inl hended, h.follows⟩

/-- What stands in parentheses makes a valid item of the pseudo-class before them. -/
theorem valid_call (h : Continues .fresh depth first others rest) {double : Bool}
    {name : List Char} (hname : Word name) : (Item.call double name first others).Valid := by
  rcases h.ended with hended | hne | ⟨-, rfl, hnone, -⟩
  · cases hended
  · exact .call hname (List.forall_mem_cons.2 ⟨⟨hne, h.fits⟩, h.others_fit⟩)
      (List.forall_mem_cons.2 ⟨h.items, h.others_items⟩)
  · exact .emptyCall hname hnone h.items

end Continues

/-- Accepted lexemes are those of the rest of a list, and of what comes after it. -/
theorem exists_continues_of_accepts (size : Nat) :
    ∀ (lexemes : List Lexeme), lexemes.length ≤ size → (∀ lexeme ∈ lexemes, lexeme.WellFormed) →
      ∀ (progress : Progress) (depth : Nat), Accepts progress depth lexemes →
        ∃ first others rest, lexemes = listLexemes first others ++ rest ∧
          Continues progress depth first others rest := by
  -- on the length, since a call is followed by two lists that are shorter but not tails of each other
  induction size with
  | zero =>
    intro lexemes hlength _ progress depth h
    obtain rfl : lexemes = [] := by simpa using hlength
    obtain ⟨hended, rfl⟩ := h
    exact ⟨[], [], [], rfl, by simp, rfl, by simp, by simp, .inl hended, rfl⟩
  | succ size ih =>
    intro lexemes hlength hwell progress depth h
    cases lexemes with
    | nil =>
      obtain ⟨hended, rfl⟩ := h
      exact ⟨[], [], [], rfl, by simp, rfl, by simp, by simp, .inl hended, rfl⟩
    | cons lexeme tail =>
      have hshort : tail.length ≤ size := by simpa using hlength
      obtain ⟨hlexeme, htail⟩ := List.forall_mem_cons.1 hwell
      cases lexeme with
      | blank c =>
        obtain ⟨first, others, rest, rfl, hmore⟩ := ih tail hshort htail progress depth h
        exact ⟨.blank c :: first, others, rest, rfl, hmore.blank hlexeme⟩
      | comma =>
        obtain ⟨hended, h⟩ := h
        obtain ⟨first, others, rest, rfl, hmore⟩ := ih tail hshort htail .separated depth h
        exact ⟨[], first :: others, rest, rfl, hmore.comma hended⟩
      | part piece =>
        obtain ⟨after, htake, h⟩ := h
        obtain ⟨first, others, rest, rfl, hmore⟩ := ih tail hshort htail after depth h
        exact ⟨.part piece :: first, others, rest, rfl, hmore.item (.part hlexeme) rfl htake⟩
      | close =>
        obtain ⟨hended, outer, rfl, h⟩ := h
        refine ⟨[], [], .close :: tail, rfl, by simp, rfl, by simp, by simp, ?_, tail, rfl, h⟩
        rcases hended with hended | hfresh
        · exact .inl hended
        · exact .inr (.inr ⟨hfresh, rfl, rfl, Nat.succ_pos _⟩)
      | call double name =>
        obtain ⟨first, others, rest, rfl, hinner⟩ := ih tail hshort htail .fresh (depth + 1) h
        obtain ⟨more, rfl, hrest⟩ := hinner.follows
        have hmore : more.length ≤ size := by
          simp only [List.length_append, List.length_cons] at hshort
          omega
        have hwellMore : ∀ lexeme ∈ more, lexeme.WellFormed := fun lexeme hmem =>
          htail lexeme (by simp [hmem])
        obtain ⟨first', others', rest', rfl, houter⟩ := ih more hmore hwellMore .begun depth hrest
        refine ⟨.call double name first others :: first', others', rest', ?_,
          houter.item (hinner.valid_call hlexeme) rfl rfl⟩
        simp [listLexemes, groupLexemes, Item.lexemes]

/-- What is accepted from the start is the lexemes of a selector list. -/
theorem exists_list_of_accepts {lexemes : List Lexeme} (hwell : ∀ lexeme ∈ lexemes, lexeme.WellFormed)
    (h : Accepts .fresh 0 lexemes) :
    ∃ first others, ValidList first others ∧ lexemes = listLexemes first others := by
  obtain ⟨first, others, rest, rfl, hlist⟩ :=
    exists_continues_of_accepts lexemes.length lexemes (Nat.le_refl _) hwell .fresh 0 h
  obtain rfl : rest = [] := hlist.follows
  have hne : groupTags first ≠ [] := by
    rcases hlist.ended with hended | hne | ⟨-, -, -, hdepth⟩
    · cases hended
    · exact hne
    · exact absurd hdepth (Nat.lt_irrefl 0)
  refine ⟨first, others, ⟨?_, ?_⟩, by simp⟩
  · exact List.forall_mem_cons.2 ⟨⟨hne, hlist.fits⟩, hlist.others_fit⟩
  · exact List.forall_mem_cons.2 ⟨hlist.items, hlist.others_items⟩

end SelectorLint.Selector
