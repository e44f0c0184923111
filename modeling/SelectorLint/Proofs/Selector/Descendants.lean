import SelectorLint.Proofs.Selector.Groups

/-!
# Descendant combinators

White space between two components of a group is a combinator if no sign stands there too, and then it is
one combinator, at the first white space, with the comments around it in the order of the text
(`parse_descendants`).

What follows a component, its arguments included, up to the next one is a gap. `Joins` says what it
becomes. The proof looks ahead in the items of the group twice: white space that does not join leaves just
the comments and signs (`exists_gap_of_not_joins`), and right after a component the first white space
decides (`exists_gap_of_joins`).
-/

namespace SelectorLint.Selector

open Text Branch

/-! ## What stands between components -/

namespace Lexeme

/-- White space. -/
def isBlank : Lexeme → Bool
  | blank _ => true
  | _ => false

/-- A combinator that is written as a sign. -/
def isSign : Lexeme → Bool
  | .part (.combinator _) => true
  | _ => false

/-- What may stand between two components: white space, comments and signs. -/
def IsGap (lexeme : Lexeme) : Prop :=
  (∃ c, isSpace c ∧ lexeme = .blank c) ∨ (∃ tail, lexeme = .part (.comment tail)) ∨
    ∃ sign, lexeme = .part (.combinator sign)

end Lexeme

/-- What the comments and signs of a gap say as nodes. -/
def partLabels (gap : List (Placed Lexeme)) : List Label :=
  gap.filterMap fun lexeme =>
    match lexeme.piece with
    | .part piece => some ⟨piece.kind, piece.value, lexeme.offset⟩
    | _ => none

namespace Label

/-- The node is neither a combinator nor a comment. -/
def isComponent (label : Label) : Bool := label.kind ≠ .combinator && label.kind ≠ .comment

/-- The node is a descendant combinator. -/
def isDescendant (label : Label) : Bool := label.kind = .combinator && label.value = " "

end Label

/-- What stands between two components becomes the nodes between theirs. -/
structure Joins (gap : List (Placed Lexeme)) (between : List Label) : Prop where
  isGap : ∀ lexeme ∈ gap, lexeme.piece.IsGap
  /-- There is a descendant combinator if there is white space and no sign. -/
  exists_iff : (∃ label ∈ between, label.isDescendant) ↔
    (∃ lexeme ∈ gap, lexeme.piece.isBlank) ∧ ∀ lexeme ∈ gap, ¬lexeme.piece.isSign
  count_le : between.countP Label.isDescendant ≤ 1
  /-- It is at the first white space, and comments stay on their side of it. -/
  stands : ∀ before label after, between = before ++ label :: after → label.isDescendant →
    ∃ first c last, gap = first ++ ⟨label.offset, .blank c⟩ :: last ∧
      (∀ lexeme ∈ first, ¬lexeme.piece.isBlank) ∧ before = partLabels first ∧ after = partLabels last

theorem not_isDescendant_of_mem_partLabels {gap : List (Placed Lexeme)}
    (hgap : ∀ lexeme ∈ gap, lexeme.piece.IsGap) : ∀ label ∈ partLabels gap, ¬label.isDescendant := by
  intro label hlabel
  obtain ⟨lexeme, hlexeme, hpart⟩ := List.mem_filterMap.1 hlabel
  rcases hgap lexeme hlexeme with ⟨c, -, hpiece⟩ | ⟨tail, hpiece⟩ | ⟨sign, hpiece⟩
  · simp [hpiece] at hpart
  · simp only [hpiece, Option.some.injEq] at hpart
    simp [← hpart, Label.isDescendant, Part.kind]
  · simp only [hpiece, Option.some.injEq] at hpart
    cases sign <;> simp [← hpart, Label.isDescendant, Part.value, Part.text, Sign.text]

namespace Joins

variable {gap : List (Placed Lexeme)} {between : List Label}

/-- No descendant combinator, where there is no white space or there is a sign. -/
theorem of_none (hgap : ∀ lexeme ∈ gap, lexeme.piece.IsGap)
    (h : (∀ lexeme ∈ gap, ¬lexeme.piece.isBlank) ∨ ∃ lexeme ∈ gap, lexeme.piece.isSign) :
    Joins gap (partLabels gap) := by
  have hnone := not_isDescendant_of_mem_partLabels hgap
  refine ⟨hgap, ⟨fun hsome => ?_, fun hspace => ?_⟩, ?_, ?_⟩
  · obtain ⟨label, hlabel, hdescendant⟩ := hsome
    exact absurd hdescendant (hnone label hlabel)
  · obtain ⟨⟨blank, hblank, hisBlank⟩, hsigns⟩ := hspace
    rcases h with hblanks | ⟨sign, hsign, hisSign⟩
    · exact absurd hisBlank (hblanks blank hblank)
    · exact absurd hisSign (hsigns sign hsign)
  · rw [List.countP_eq_zero.2 hnone]
    exact Nat.zero_le 1
  · intro before label after heq hdescendant
    exact absurd hdescendant (hnone label (by simp [heq]))

/-- A comment in front stays in front. -/
theorem comment (h : Joins gap between) (offset : Nat) (tail : List Char) :
    Joins (⟨offset, .part (.comment tail)⟩ :: gap)
      (⟨.comment, (Part.comment tail).value, offset⟩ :: between) := by
  refine ⟨List.forall_mem_cons.2 ⟨.inr (.inl ⟨tail, rfl⟩), h.isGap⟩, ?_, ?_, ?_⟩
  · simpa [Label.isDescendant, Lexeme.isBlank, Lexeme.isSign] using h.exists_iff
  · rw [List.countP_cons_of_neg (by simp [Label.isDescendant])]
    exact h.count_le
  · intro before label after heq hdescendant
    cases before with
    | nil =>
      cases heq
      simp [Label.isDescendant] at hdescendant
    | cons first before =>
      obtain ⟨rfl, rfl⟩ := List.cons.inj heq
      obtain ⟨front, c, last, rfl, hfront, hbefore, hafter⟩ := h.stands before label after rfl hdescendant
      refine ⟨⟨offset, .part (.comment tail)⟩ :: front, c, last, rfl, ?_, ?_, hafter⟩
      · exact List.forall_mem_cons.2 ⟨by simp [Lexeme.isBlank], hfront⟩
      · rw [hbefore]
        rfl

/-- White space that becomes a combinator, since only comments and white space follow it. -/
theorem space (hgap : ∀ lexeme ∈ gap, lexeme.piece.IsGap) (hsigns : ∀ lexeme ∈ gap, ¬lexeme.piece.isSign)
    {c : Char} (hc : isSpace c) (offset : Nat) :
    Joins (⟨offset, .blank c⟩ :: gap) (⟨.combinator, " ", offset⟩ :: partLabels gap) := by
  have hcomments := not_isDescendant_of_mem_partLabels hgap
  refine ⟨List.forall_mem_cons.2 ⟨.inl ⟨c, hc, rfl⟩, hgap⟩, ⟨fun _ => ⟨?_, ?_⟩, fun _ => ?_⟩, ?_, ?_⟩
  · exact ⟨_, List.mem_cons_self, rfl⟩
  · exact List.forall_mem_cons.2 ⟨by simp [Lexeme.isSign], hsigns⟩
  · exact ⟨_, List.mem_cons_self, rfl⟩
  · rw [List.countP_cons_of_pos rfl, List.countP_eq_zero.2 hcomments]
  · intro before label after heq hdescendant
    cases before with
    | nil =>
      obtain ⟨rfl, rfl⟩ := List.cons.inj heq
      exact ⟨[], c, gap, rfl, by simp, rfl, rfl⟩
    | cons first before =>
      obtain ⟨-, hrest⟩ := List.cons.inj heq
      exact absurd hdescendant (hcomments label (by simp [hrest]))

end Joins

/-! ## Components among the items of a group -/

theorem not_isComponent_of_sort {piece : Part} (h : piece.sort ≠ .component) (offset : Nat) :
    ¬(⟨piece.kind, piece.value, offset⟩ : Label).isComponent := by
  cases piece <;> simp [Part.sort] at h <;> simp [Label.isComponent, Part.kind]

theorem isComponent_of_sort {piece : Part} (hwell : piece.WellFormed) (h : piece.sort = .component)
    (offset : Nat) : (⟨piece.kind, piece.value, offset⟩ : Label).isComponent := by
  simpa [Label.isComponent] using kind_of_component hwell h

/-- A component among the nodes of items is one of the items. White space joins after it. -/
theorem exists_item_of_isComponent {items : List Item} {joins : Bool} {offset : Nat} {left : Label}
    {before after : List Label} (hleft : left.isComponent)
    (h : labelsOf (itemBranches joins offset items) = before ++ left :: after) :
    ∃ front item back, items = front ++ item :: back ∧ item.sort? = some .component ∧
      left.offset = offset + width (groupLexemes front) ∧
      labelsOf (itemBranches true (left.offset + width item.lexemes) back) = after := by
  induction items generalizing joins offset before with
  | nil =>
    rw [itemBranches] at h
    simp at h
  | cons item rest ih =>
    have hlater : ∀ joins' before',
        labelsOf (itemBranches joins' (offset + width item.lexemes) rest) = before' ++ left :: after →
        ∃ front found back, item :: rest = front ++ found :: back ∧ found.sort? = some .component ∧
          left.offset = offset + width (groupLexemes front) ∧
          labelsOf (itemBranches true (left.offset + width found.lexemes) back) = after := by
      intro joins' before' hrest
      obtain ⟨front, found, back, rfl, hsort, hoffset, hafter⟩ := ih hrest
      refine ⟨item :: front, found, back, rfl, hsort, ?_, hafter⟩
      rw [hoffset, groupLexemes, width_append]
      omega
    cases item with
    | blank c =>
      rw [width_blank] at hlater
      rw [itemBranches] at h
      split at h
      · rw [List.singleton_append, labelsOf_partLeaf] at h
        rcases List.cons_eq_append_iff.1 h with ⟨rfl, heq⟩ | ⟨before', rfl, hrest⟩
        · cases heq
          cases hleft
        · exact hlater false before' hrest
      · exact hlater false before h
    | part piece =>
      rw [width_part] at hlater
      rw [itemBranches, labelsOf_partLeaf] at h
      rcases List.cons_eq_append_iff.1 h with ⟨rfl, heq⟩ | ⟨before', rfl, hrest⟩
      · obtain ⟨rfl, rfl⟩ := List.cons.inj heq
        have hsort : piece.sort = .component := by
          by_contra hne
          exact not_isComponent_of_sort hne offset hleft
        refine ⟨[], .part piece, rest, rfl, congrArg some hsort, rfl, ?_⟩
        rw [hsort, width_part]
        rfl
      · exact hlater _ before' hrest
    | call double name first others =>
      rw [itemBranches_call, labelsOf_callBranch] at h
      rcases List.cons_eq_append_iff.1 h with ⟨rfl, heq⟩ | ⟨before', rfl, hrest⟩
      · obtain ⟨rfl, rfl⟩ := List.cons.inj heq
        exact ⟨[], .call double name first others, rest, rfl, rfl, rfl, rfl⟩
      · exact hlater _ before' hrest

/-! ## Gaps -/

/-- The lexemes of items from `offset` on. -/
def itemsAt (offset : Nat) (items : List Item) : List (Placed Lexeme) :=
  placed Lexeme.text offset (groupLexemes items)

@[simp] theorem itemsAt_nil (offset : Nat) : itemsAt offset [] = [] := rfl

@[simp] theorem itemsAt_blank (offset : Nat) (c : Char) (rest : List Item) :
    itemsAt offset (.blank c :: rest) = ⟨offset, .blank c⟩ :: itemsAt (offset + c.utf8Size) rest := by
  simp [itemsAt, groupLexemes, Item.lexemes, placed, Lexeme.text]

@[simp] theorem itemsAt_part (offset : Nat) (piece : Part) (rest : List Item) :
    itemsAt offset (.part piece :: rest) =
      ⟨offset, .part piece⟩ :: itemsAt (offset + byteLength piece.text) rest := by
  simp [itemsAt, groupLexemes, Item.lexemes, placed, Lexeme.text]

/-- The items begin with `gap`, and then comes what stands at `right`. -/
def Reaches (offset : Nat) (items gap : List Item) (right : Nat) : Prop :=
  gap <+: items ∧ right = offset + width (groupLexemes gap)

theorem Reaches.cons {offset right : Nat} {item : Item} {items gap : List Item}
    (h : Reaches (offset + width item.lexemes) items gap right) :
    Reaches offset (item :: items) (item :: gap) right := by
  refine ⟨List.cons_prefix_cons.2 ⟨rfl, h.1⟩, ?_⟩
  rw [h.2, groupLexemes, width_append]
  omega

theorem reaches_nil (offset : Nat) (items : List Item) : Reaches offset items [] offset :=
  ⟨List.nil_prefix, rfl⟩

theorem part_cases (piece : Part) :
    (∃ tail, piece = .comment tail) ∨ (∃ sign, piece = .combinator sign) ∨ piece.sort = .component := by
  cases piece <;> simp [Part.sort]

theorem isGap_of_sort {piece : Part} (h : piece.sort ≠ .component) : (Lexeme.part piece).IsGap := by
  rcases part_cases piece with ⟨tail, rfl⟩ | ⟨sign, rfl⟩ | hsort
  · exact .inr (.inl ⟨tail, rfl⟩)
  · exact .inr (.inr ⟨sign, rfl⟩)
  · exact absurd hsort h

/-- Comments do not keep white space from joining, and signs do. -/
theorem meetsComponent_part_iff {piece : Part} (h : piece.sort ≠ .component) (rest : List Item) :
    meetsComponent (.part piece :: rest) ↔ ¬(Lexeme.part piece).isSign ∧ meetsComponent rest := by
  rcases part_cases piece with ⟨tail, rfl⟩ | ⟨sign, rfl⟩ | hsort
  · simp [meetsComponent, Part.sort, Lexeme.isSign]
  · simp [meetsComponent, Part.sort, Lexeme.isSign]
  · exact absurd hsort h

section Next

variable {label right : Label} {labels between after : List Label}

/-- The next component is not the first of the nodes if that is none. -/
theorem exists_between_of_not_isComponent (hright : right.isComponent)
    (h : label :: labels = between ++ right :: after) (hlabel : ¬label.isComponent) :
    ∃ more, between = label :: more ∧ labels = more ++ right :: after := by
  rcases List.cons_eq_append_iff.1 h with ⟨-, heq⟩ | hmore
  · cases heq
    exact absurd hright hlabel
  · exact hmore

/-- The next component is the first of the nodes if that is one. -/
theorem eq_of_isComponent (hbetween : ∀ label ∈ between, ¬label.isComponent) (hlabel : label.isComponent)
    (h : label :: labels = between ++ right :: after) : between = [] ∧ label = right := by
  rcases List.cons_eq_append_iff.1 h with ⟨hnil, heq⟩ | ⟨more, rfl, -⟩
  · exact ⟨hnil, (List.cons.inj heq).1.symm⟩
  · exact absurd hlabel (hbetween label List.mem_cons_self)

end Next

/-- White space that does not join leaves the comments and signs of a gap. -/
theorem exists_gap_of_not_joins {items : List Item} (hitems : ∀ item ∈ items, item.Valid) {offset : Nat}
    {right : Label} {between after : List Label} (hright : right.isComponent)
    (hbetween : ∀ label ∈ between, ¬label.isComponent)
    (h : labelsOf (itemBranches false offset items) = between ++ right :: after) :
    ∃ gap, Reaches offset items gap right.offset ∧
      (∀ lexeme ∈ itemsAt offset gap, lexeme.piece.IsGap) ∧ between = partLabels (itemsAt offset gap) ∧
      (meetsComponent items ↔ ∀ lexeme ∈ itemsAt offset gap, ¬lexeme.piece.isSign) := by
  induction items generalizing offset between with
  | nil =>
    rw [itemBranches] at h
    simp at h
  | cons item rest ih =>
    obtain ⟨hitem, hrest⟩ := List.forall_mem_cons.1 hitems
    cases item with
    | blank c =>
      obtain ⟨hc⟩ := hitem
      rw [itemBranches] at h
      obtain ⟨gap, hreaches, hgap, hlabels, hmeets⟩ := ih hrest hbetween h
      rw [← width_blank] at hreaches
      refine ⟨.blank c :: gap, hreaches.cons, ?_, ?_, ?_⟩ <;> rw [itemsAt_blank]
      · exact List.forall_mem_cons.2 ⟨.inl ⟨c, hc, rfl⟩, hgap⟩
      · exact hlabels
      · rw [meetsComponent, hmeets, List.forall_mem_cons]
        simp [Lexeme.isSign]
    | call double name first others =>
      rw [itemBranches_call, labelsOf_callBranch] at h
      obtain ⟨rfl, rfl⟩ := eq_of_isComponent hbetween rfl h
      exact ⟨[], reaches_nil _ _, by simp, rfl, by simp [meetsComponent]⟩
    | part piece =>
      rw [itemBranches, labelsOf_partLeaf] at h
      by_cases hsort : piece.sort = .component
      · obtain ⟨rfl, rfl⟩ := eq_of_isComponent hbetween
          (isComponent_of_sort (wellFormed_of_valid hitem) hsort offset) h
        exact ⟨[], reaches_nil _ _, by simp, rfl, by simp [meetsComponent, hsort]⟩
      · have hjoins : joinsAfter false piece.sort = false := by
          cases htag : piece.sort with
          | component => exact absurd htag hsort
          | comment | combinator => rfl
        rw [hjoins] at h
        obtain ⟨more, rfl, hmore⟩ :=
          exists_between_of_not_isComponent hright h (not_isComponent_of_sort hsort offset)
        obtain ⟨gap, hreaches, hgap, hlabels, hmeets⟩ :=
          ih hrest (List.forall_mem_cons.1 hbetween).2 hmore
        rw [← width_part] at hreaches
        refine ⟨.part piece :: gap, hreaches.cons, ?_, ?_, ?_⟩ <;> rw [itemsAt_part]
        · exact List.forall_mem_cons.2 ⟨isGap_of_sort hsort, hgap⟩
        · rw [hlabels]
          rfl
        · rw [meetsComponent_part_iff hsort, hmeets, List.forall_mem_cons]

/-- After a component, what comes before the next one is a gap, and becomes the nodes between them. -/
theorem exists_gap_of_joins {items : List Item} (hitems : ∀ item ∈ items, item.Valid) {offset : Nat}
    {right : Label} {between after : List Label} (hright : right.isComponent)
    (hbetween : ∀ label ∈ between, ¬label.isComponent)
    (h : labelsOf (itemBranches true offset items) = between ++ right :: after) :
    ∃ gap, Reaches offset items gap right.offset ∧ Joins (itemsAt offset gap) between := by
  have hnone : Joins (itemsAt offset []) [] := .of_none (by simp) (by simp)
  induction items generalizing offset between with
  | nil =>
    rw [itemBranches] at h
    simp at h
  | cons item rest ih =>
    obtain ⟨hitem, hrest⟩ := List.forall_mem_cons.1 hitems
    cases item with
    | blank c =>
      obtain ⟨hc⟩ := hitem
      rw [itemBranches, Bool.true_and] at h
      split at h
      next hmeets =>
        rw [List.singleton_append, labelsOf_partLeaf] at h
        obtain ⟨more, rfl, hmore⟩ := exists_between_of_not_isComponent hright h Bool.false_ne_true
        obtain ⟨gap, hreaches, hgap, rfl, hsigns⟩ :=
          exists_gap_of_not_joins hrest hright (List.forall_mem_cons.1 hbetween).2 hmore
        rw [← width_blank] at hreaches
        refine ⟨.blank c :: gap, hreaches.cons, ?_⟩
        rw [itemsAt_blank]
        exact .space hgap (hsigns.1 hmeets) hc offset
      next hmeets =>
        -- a sign follows, and takes the place of the white space on both of its sides
        obtain ⟨gap, hreaches, hgap, rfl, hsigns⟩ := exists_gap_of_not_joins hrest hright hbetween h
        rw [← width_blank] at hreaches
        refine ⟨.blank c :: gap, hreaches.cons, ?_⟩
        rw [itemsAt_blank]
        refine Joins.of_none (List.forall_mem_cons.2 ⟨.inl ⟨c, hc, rfl⟩, hgap⟩) (.inr ?_)
        rw [hsigns] at hmeets
        push Not at hmeets
        obtain ⟨sign, hsign, hisSign⟩ := hmeets
        exact ⟨sign, List.mem_cons_of_mem _ hsign, hisSign⟩
    | call double name first others =>
      rw [itemBranches_call, labelsOf_callBranch] at h
      obtain ⟨rfl, rfl⟩ := eq_of_isComponent hbetween rfl h
      exact ⟨[], reaches_nil _ _, hnone⟩
    | part piece =>
      rw [itemBranches, labelsOf_partLeaf] at h
      rcases part_cases piece with ⟨tail, rfl⟩ | ⟨sign, rfl⟩ | hsort
      · obtain ⟨more, rfl, hmore⟩ := exists_between_of_not_isComponent hright h Bool.false_ne_true
        obtain ⟨gap, hreaches, hjoins⟩ :=
          ih hrest (List.forall_mem_cons.1 hbetween).2 hmore (.of_none (by simp) (by simp))
        rw [← width_part] at hreaches
        refine ⟨.part (.comment tail) :: gap, hreaches.cons, ?_⟩
        rw [itemsAt_part]
        exact hjoins.comment offset tail
      · obtain ⟨more, rfl, hmore⟩ := exists_between_of_not_isComponent hright h Bool.false_ne_true
        obtain ⟨gap, hreaches, hgap, rfl, -⟩ :=
          exists_gap_of_not_joins hrest hright (List.forall_mem_cons.1 hbetween).2 hmore
        rw [← width_part] at hreaches
        refine ⟨.part (.combinator sign) :: gap, hreaches.cons, ?_⟩
        rw [itemsAt_part]
        exact Joins.of_none (List.forall_mem_cons.2 ⟨.inr (.inr ⟨sign, rfl⟩), hgap⟩)
          (.inr ⟨_, List.mem_cons_self, rfl⟩)
      · obtain ⟨rfl, rfl⟩ := eq_of_isComponent hbetween
          (isComponent_of_sort (wellFormed_of_valid hitem) hsort offset) h
        exact ⟨[], reaches_nil _ _, hnone⟩

/-! ## Descendant combinators stand between components -/

theorem exists_component_of_meetsComponent {items : List Item} (hitems : ∀ item ∈ items, item.Valid)
    (hmeets : meetsComponent items) (joins : Bool) (offset : Nat) :
    ∃ label ∈ labelsOf (itemBranches joins offset items), label.isComponent := by
  induction items generalizing joins offset with
  | nil => cases hmeets
  | cons item rest ih =>
    obtain ⟨hitem, hrest⟩ := List.forall_mem_cons.1 hitems
    cases item with
    | blank c =>
      obtain ⟨label, hlabel, hcomponent⟩ := ih hrest hmeets false (offset + c.utf8Size)
      rw [itemBranches, labelsOf, List.map_append]
      exact ⟨label, List.mem_append_right _ hlabel, hcomponent⟩
    | call double name first others =>
      rw [itemBranches_call, labelsOf_callBranch]
      exact ⟨_, List.mem_cons_self, rfl⟩
    | part piece =>
      rw [itemBranches, labelsOf_partLeaf]
      rcases part_cases piece with ⟨tail, rfl⟩ | ⟨sign, rfl⟩ | hsort
      · obtain ⟨label, hlabel, hcomponent⟩ :=
          ih hrest hmeets joins (offset + byteLength (Part.comment tail).text)
        exact ⟨label, List.mem_cons_of_mem _ hlabel, hcomponent⟩
      · cases hmeets
      · exact ⟨_, List.mem_cons_self, isComponent_of_sort (wellFormed_of_valid hitem) hsort offset⟩

theorem not_isDescendant_of_wellFormed {piece : Part} (h : piece.WellFormed) (offset : Nat) :
    ¬(⟨piece.kind, piece.value, offset⟩ : Label).isDescendant := by
  cases piece with
  | descendant => exact h.elim
  | combinator sign => cases sign <;> simp [Label.isDescendant, Part.value, Part.text, Sign.text]
  | _ => simp [Label.isDescendant, Part.kind]

/-- A descendant combinator has a component somewhere before it, unless white space joins from the start,
and a component somewhere after it. -/
theorem exists_components_of_isDescendant {items : List Item} (hitems : ∀ item ∈ items, item.Valid)
    {joins : Bool} {offset : Nat} {before after : List Label} {label : Label} (hlabel : label.isDescendant)
    (h : labelsOf (itemBranches joins offset items) = before ++ label :: after) :
    (joins ∨ ∃ left ∈ before, left.isComponent) ∧ ∃ right ∈ after, right.isComponent := by
  induction items generalizing joins offset before with
  | nil =>
    rw [itemBranches] at h
    simp at h
  | cons item rest ih =>
    obtain ⟨hitem, hrest⟩ := List.forall_mem_cons.1 hitems
    cases item with
    | blank c =>
      rw [itemBranches] at h
      split at h
      next hspace =>
        rw [Bool.and_eq_true] at hspace
        rw [List.singleton_append, labelsOf_partLeaf] at h
        rcases List.cons_eq_append_iff.1 h with ⟨rfl, heq⟩ | ⟨more, rfl, hmore⟩
        · obtain ⟨-, rfl⟩ := List.cons.inj heq
          exact ⟨.inl hspace.1, exists_component_of_meetsComponent hrest hspace.2 _ _⟩
        · exact ⟨.inl hspace.1, (ih hrest hmore).2⟩
      next =>
        obtain ⟨hleft, hright⟩ := ih hrest h
        rcases hleft with hjoins | hleft
        · cases hjoins
        · exact ⟨.inr hleft, hright⟩
    | call double name first others =>
      rw [itemBranches_call, labelsOf_callBranch] at h
      rcases List.cons_eq_append_iff.1 h with ⟨rfl, heq⟩ | ⟨more, rfl, hmore⟩
      · cases heq
        cases hlabel
      · exact ⟨.inr ⟨_, List.mem_cons_self, rfl⟩, (ih hrest hmore).2⟩
    | part piece =>
      have hpiece := wellFormed_of_valid hitem
      rw [itemBranches, labelsOf_partLeaf] at h
      rcases List.cons_eq_append_iff.1 h with ⟨rfl, heq⟩ | ⟨more, rfl, hmore⟩
      · cases heq
        exact absurd hlabel (not_isDescendant_of_wellFormed hpiece offset)
      · obtain ⟨hleft, hright⟩ := ih hrest hmore
        refine ⟨?_, hright⟩
        rcases hleft with hjoins | ⟨left, hleft, hcomponent⟩
        · rcases part_cases piece with ⟨tail, rfl⟩ | ⟨sign, rfl⟩ | hsort
          · exact .inl hjoins
          · cases hjoins
          · exact .inr ⟨_, List.mem_cons_self, isComponent_of_sort hpiece hsort offset⟩
        · exact .inr ⟨left, List.mem_cons_of_mem _ hleft, hcomponent⟩

/-! ## Descendant combinators of a tree -/

section Group

variable {selector : String} {front back : List Lexeme} {items : List Item}

theorem exists_joins (hlexemes : lexemes selector.toList = ⟨front ++ (groupLexemes items ++ back), none⟩)
    (hitems : ∀ item ∈ items, item.Valid) {left right : Label} {before between after : List Label}
    (hleft : left.isComponent) (hright : right.isComponent)
    (hbetween : ∀ label ∈ between, ¬label.isComponent)
    (h : labelsOf (itemBranches false (width front) items) = before ++ left :: (between ++ right :: after)) :
    ∃ gap, afterComponent (lexemesAt selector left.offset) = gap ++ lexemesAt selector right.offset ∧
      Joins gap between := by
  obtain ⟨first, item, rest, rfl, hsort, hoffset, hrest⟩ := exists_item_of_isComponent hleft h
  have hvalid : ∀ item ∈ rest, item.Valid := fun item hitem => hitems item (by simp [hitem])
  obtain ⟨gap, ⟨⟨last, rfl⟩, hreaches⟩, hjoins⟩ := exists_gap_of_joins hvalid hright hbetween hrest
  refine ⟨itemsAt (left.offset + width item.lexemes) gap, ?_, hjoins⟩
  have hat : lexemesAt selector left.offset =
      placed Lexeme.text left.offset (item.lexemes ++ (groupLexemes gap ++ (groupLexemes last ++ back))) := by
    rw [hoffset, ← width_append]
    apply lexemesAt_of_append
    simpa [groupLexemes_append, groupLexemes] using hlexemes
  have hnext : lexemesAt selector right.offset =
      placed Lexeme.text right.offset (groupLexemes last ++ back) := by
    rw [hreaches, hoffset, ← width_append, ← width_append, ← width_append]
    apply lexemesAt_of_append
    simpa [groupLexemes_append, groupLexemes] using hlexemes
  rw [hat, hnext, afterComponent_item hsort, placed_append, itemsAt, hreaches]
  rfl

end Group

/-- In a group, white space between two components next to each other is a descendant combinator just when
no sign stands there. It is one combinator, at the first white space; see `Joins`. There are no descendant
combinators before the first component or after the last one. -/
theorem parse_descendants {selector : String} {tree : Tree} (h : parse selector = .ok tree) {group : Nat}
    (hgroup : tree.kind? group = some .selector) :
    (∀ before left between right after,
      tree.childLabels group = before ++ left :: (between ++ right :: after) →
      left.isComponent → right.isComponent → (∀ label ∈ between, ¬label.isComponent) →
      BeginsAt selector left ∧ BeginsAt selector right ∧
        ∃ gap, afterComponent (lexemesAt selector left.offset) = gap ++ lexemesAt selector right.offset ∧
          Joins gap between) ∧
      ∀ before label after, tree.childLabels group = before ++ label :: after → label.isDescendant →
        (∃ left ∈ before, left.isComponent) ∧ ∃ right ∈ after, right.isComponent := by
  obtain ⟨front, items, back, hlexemes, hitems, hlabels⟩ := exists_items_of_group h hgroup
  rw [hlabels]
  constructor
  · intro before left between right after hsplit hleft hright hbetween
    refine ⟨beginsAt_of_mem hlexemes ?_, beginsAt_of_mem hlexemes ?_,
      exists_joins hlexemes hitems hleft hright hbetween hsplit⟩
    · simp [hsplit]
    · simp [hsplit]
  · intro before label after hsplit hlabel
    obtain ⟨hbefore, hafter⟩ := exists_components_of_isDescendant hitems hlabel hsplit
    exact ⟨hbefore.resolve_left Bool.false_ne_true, hafter⟩

/-- White space between two comments, after a pseudo-class with arguments. -/
theorem parse_descendants_arguments :
    ∃ tree, parse "a:is(b )/*x*/ /*y*/d" = .ok tree ∧ tree.kind? 1 = some .selector ∧
      tree.childLabels 1 = [⟨.tag, "a", 0⟩, ⟨.pseudo, ":is", 1⟩, ⟨.comment, "/*x*/", 8⟩,
        ⟨.combinator, " ", 13⟩, ⟨.comment, "/*y*/", 14⟩, ⟨.tag, "d", 19⟩] ∧
      ∃ gap, afterComponent (lexemesAt "a:is(b )/*x*/ /*y*/d" 1) = gap ++ lexemesAt "a:is(b )/*x*/ /*y*/d" 19 ∧
        Joins gap [⟨.comment, "/*x*/", 8⟩, ⟨.combinator, " ", 13⟩, ⟨.comment, "/*y*/", 14⟩] := by
  have hread : (parse "a:is(b )/*x*/ /*y*/d").toOption.map
      (fun tree => (tree.kind? 1, tree.childLabels 1)) =
        some (some .selector, [⟨.tag, "a", 0⟩, ⟨.pseudo, ":is", 1⟩, ⟨.comment, "/*x*/", 8⟩,
          ⟨.combinator, " ", 13⟩, ⟨.comment, "/*y*/", 14⟩, ⟨.tag, "d", 19⟩]) := by
    decide +kernel
  cases hparse : parse "a:is(b )/*x*/ /*y*/d" with
  | error fault =>
    rw [hparse] at hread
    cases hread
  | ok tree =>
    rw [hparse] at hread
    obtain ⟨hkind, hlabels⟩ := Prod.mk.inj (Option.some.inj hread)
    obtain ⟨-, -, hgap⟩ := (parse_descendants hparse hkind).1 [⟨.tag, "a", 0⟩] ⟨.pseudo, ":is", 1⟩
      [⟨.comment, "/*x*/", 8⟩, ⟨.combinator, " ", 13⟩, ⟨.comment, "/*y*/", 14⟩] ⟨.tag, "d", 19⟩ []
      hlabels rfl rfl (by decide)
    exact ⟨tree, rfl, hkind, hlabels, hgap⟩

end SelectorLint.Selector
