import SelectorLint.Proofs.Selector.Recognition
import SelectorLint.Proofs.Selector.Spans

/-!
# Where the nodes of a selector stand

A node of a parsed selector comes from a lexeme of its text and stands where that lexeme starts; a group
stands where its first child does. In document order the offsets never go down (`labels_of_parse`).

This is proved of the branches of a selector list together with its lexemes (`Laid`), by recursion on
its items.
-/

namespace SelectorLint.Selector

open Text Branch

/-- The kind and the value of the node that a lexeme becomes. White space need not become one. -/
def Lexeme.node? : Lexeme → Option (Kind × String)
  | blank _ => some (.combinator, " ")
  | .part piece => some (piece.kind, piece.value)
  | call double name => some (.pseudo, (Part.pseudo double name).value)
  | comma | close => none

/-- One of the lexemes, which follow each other from `offset` on, becomes the node with this label. -/
def StandsIn (offset : Nat) (lexemes : List Lexeme) (label : Label) : Prop :=
  ∃ front lexeme back, lexemes = front ++ lexeme :: back ∧ label.offset = offset + width front ∧
    lexeme.node? = some (label.kind, label.value)

/-- The branches are those of the lexemes, which follow each other from `offset` on. -/
structure Laid (offset : Nat) (lexemes : List Lexeme) (branches : List Branch) : Prop where
  ordered : (partsAll branches).Pairwise fun first second => first.label.offset ≤ second.label.offset
  within : ∀ part ∈ partsAll branches,
    offset ≤ part.label.offset ∧ part.label.offset ≤ offset + width lexemes
  stands : ∀ part ∈ partsAll branches, part.label.kind ≠ .selector → StandsIn offset lexemes part.label

namespace Laid

variable {offset : Nat} {lexemes others : List Lexeme} {branches more : List Branch}

theorem nil (offset : Nat) (lexemes : List Lexeme) : Laid offset lexemes [] where
  ordered := .nil
  within _ hmem := by cases hmem
  stands _ hmem := by cases hmem

theorem append (h : Laid offset lexemes branches) (hmore : Laid (offset + width lexemes) others more) :
    Laid offset (lexemes ++ others) (branches ++ more) := by
  refine ⟨?_, ?_, ?_⟩
  · rw [partsAll_append]
    refine List.pairwise_append.2 ⟨h.ordered, hmore.ordered, fun part hpart other hother => ?_⟩
    have hleft := h.within part hpart
    have hright := hmore.within other hother
    omega
  · rw [partsAll_append]
    refine List.forall_mem_append.2 ⟨fun part hpart => ?_, fun part hpart => ?_⟩
    · have hleft := h.within part hpart
      rw [width_append]
      omega
    · have hright := hmore.within part hpart
      rw [width_append]
      omega
  · rw [partsAll_append]
    refine List.forall_mem_append.2 ⟨fun part hpart hkind => ?_, fun part hpart hkind => ?_⟩
    · obtain ⟨front, lexeme, back, rfl, hoffset, hnode⟩ := h.stands part hpart hkind
      exact ⟨front, lexeme, back ++ others, by simp, hoffset, hnode⟩
    · obtain ⟨front, lexeme, back, rfl, hoffset, hnode⟩ := hmore.stands part hpart hkind
      exact ⟨lexemes ++ front, lexeme, back, by simp, by rw [hoffset, width_append]; omega, hnode⟩

/-- A lexeme that becomes a node, with what stands below it. -/
theorem node {lexeme : Lexeme} {kind : Kind} {value : String} (hnode : lexeme.node? = some (kind, value))
    (h : Laid (offset + byteLength lexeme.text) lexemes branches) :
    Laid offset (lexeme :: lexemes) [.node ⟨kind, value, offset⟩ branches] := by
  have hparts : partsAll [.node ⟨kind, value, offset⟩ branches] =
      .node ⟨kind, value, offset⟩ branches :: partsAll branches := by
    simp [partsAll, parts]
  refine ⟨?_, ?_, ?_⟩
  · rw [hparts]
    refine List.pairwise_cons.2 ⟨fun part hpart => ?_, h.ordered⟩
    have hbelow := h.within part hpart
    show offset ≤ part.label.offset
    omega
  · rw [hparts]
    refine List.forall_mem_cons.2 ⟨⟨Nat.le_refl _, Nat.le_add_right _ _⟩, fun part hpart => ?_⟩
    have hbelow := h.within part hpart
    rw [width_cons]
    omega
  · rw [hparts]
    refine List.forall_mem_cons.2 ⟨fun _ => ⟨[], lexeme, lexemes, rfl, rfl, hnode⟩, ?_⟩
    intro part hpart hkind
    obtain ⟨front, other, back, rfl, hoffset, hother⟩ := h.stands part hpart hkind
    exact ⟨lexeme :: front, other, back, rfl, by rw [hoffset, width_cons]; omega, hother⟩

/-- A lexeme that becomes no node. -/
theorem skip (lexeme : Lexeme) (h : Laid (offset + byteLength lexeme.text) lexemes branches) :
    Laid offset (lexeme :: lexemes) branches := by
  have hskip : Laid offset [lexeme] [] := nil _ _
  refine hskip.append ?_
  rw [width_cons, width_nil, Nat.add_zero]
  exact h

theorem group (h : Laid offset lexemes branches) : Laid offset lexemes (groupBranch branches) := by
  cases branches with
  | nil => exact h
  | cons child rest =>
    have hparts : partsAll (groupBranch (child :: rest)) =
        .node ⟨.selector, "", child.label.offset⟩ (child :: rest) :: partsAll (child :: rest) := by
      simp [groupBranch, partsAll, parts]
    have hchild : partsAll (child :: rest) = child :: (partsAll (child :: rest)).tail := by
      cases child
      rfl
    refine ⟨?_, ?_, ?_⟩
    · rw [hparts]
      refine List.pairwise_cons.2 ⟨?_, h.ordered⟩
      have hordered := h.ordered
      rw [hchild] at hordered ⊢
      exact List.forall_mem_cons.2 ⟨Nat.le_refl _, (List.pairwise_cons.1 hordered).1⟩
    · rw [hparts]
      refine List.forall_mem_cons.2 ⟨h.within child ?_, h.within⟩
      rw [hchild]
      exact List.mem_cons_self
    · rw [hparts]
      exact List.forall_mem_cons.2 ⟨fun hkind => absurd rfl hkind, h.stands⟩

end Laid

mutual

theorem laid_items : ∀ (items : List Item) (joins : Bool) (offset : Nat),
    Laid offset (groupLexemes items) (itemBranches joins offset items)
  | [], joins, offset => by
    rw [itemBranches]
    exact .nil _ _
  | .blank c :: rest, joins, offset => by
    have hrest := laid_items rest false (offset + c.utf8Size)
    rw [itemBranches, groupLexemes, Item.lexemes]
    refine Laid.append ?_ (by simpa [Lexeme.text] using hrest)
    split
    · exact .node rfl (.nil _ _)
    · exact .nil _ _
  | .part piece :: rest, joins, offset => by
    have hrest := laid_items rest (joinsAfter joins piece.sort) (offset + byteLength piece.text)
    have hpiece : Laid offset [.part piece] [partLeaf ⟨offset, piece⟩] := .node rfl (.nil _ _)
    rw [itemBranches, groupLexemes, Item.lexemes]
    exact hpiece.append (by simpa [Lexeme.text] using hrest)
  | .call double name first others :: rest, joins, offset => by
    have hinner :=
      (laid_items first false (offset + byteLength (Lexeme.call double name).text)).group.append
        (laid_others others _)
    have hnode : (Lexeme.call double name).node? = some (.pseudo, (Part.pseudo double name).value) := rfl
    have hcall : Laid offset (Item.call double name first others).lexemes
        [callBranch offset double name first others] := by
      rw [Item.lexemes, ← List.cons_append]
      exact (Laid.node hnode hinner).append (.nil _ [.close])
    rw [itemBranches_call, groupLexemes]
    exact hcall.append (laid_items rest true _)

theorem laid_others : ∀ (others : List (List Item)) (offset : Nat),
    Laid offset (othersLexemes others) (othersBranches offset others)
  | [], offset => by
    rw [othersBranches]
    exact .nil _ _
  | group :: rest, offset => by
    have hgroup := (laid_items group false (offset + 1)).group.append (laid_others rest _)
    rw [othersBranches, othersLexemes]
    exact hgroup.skip .comma

end

theorem laid_list (offset : Nat) (first : List Item) (others : List (List Item)) :
    Laid offset (listLexemes first others) (listBranches offset first others) :=
  (laid_items first false offset).group.append (laid_others others _)

/-! ## Lexemes from a place on -/

theorem exists_next_of_lexemes {text : List Char} {lexeme : Lexeme} {others : List Lexeme}
    (h : lexemes text = ⟨lexeme :: others, none⟩) :
    ∃ c more rest, text = c :: more ∧ next c more = .ok (lexeme, rest) ∧
      lexemes rest = ⟨others, none⟩ := by
  cases text with
  | nil =>
    rw [lexemes_nil] at h
    cases h
  | cons c more =>
    cases hnext : next c more with
    | error trouble =>
      rw [lexemes_cons_of_error hnext] at h
      cases h
    | ok result =>
      obtain ⟨first, rest⟩ := result
      rw [lexemes_cons_of_next hnext, Lexing.cons] at h
      simp only [Lexing.mk.injEq, List.cons.injEq] at h
      obtain ⟨⟨rfl, hothers⟩, htrouble⟩ := h
      refine ⟨c, more, rest, rfl, hnext, ?_⟩
      rw [← hothers, ← htrouble]

/-- What follows some of the lexemes has the other lexemes. -/
theorem exists_lexemes_of_append {front back : List Lexeme} {text : List Char}
    (h : lexemes text = ⟨front ++ back, none⟩) :
    ∃ rest, text = written Lexeme.text front ++ rest ∧ lexemes rest = ⟨back, none⟩ := by
  induction front generalizing text with
  | nil => exact ⟨text, rfl, h⟩
  | cons lexeme front ih =>
    obtain ⟨c, more, after, rfl, hnext, hafter⟩ := exists_next_of_lexemes h
    obtain ⟨rest, rfl, hrest⟩ := ih hafter
    refine ⟨rest, ?_, hrest⟩
    rw [written_cons, List.append_assoc]
    exact (splits_of_next hnext).append_eq.symm

/-! ## The nodes of a tree -/

/-- The text of a lexeme that becomes the node with this label starts at the offset of the node. -/
def StartsAt (selector : List Char) (label : Label) : Prop :=
  ∃ front rest lexeme back, selector = front ++ rest ∧ byteLength front = label.offset ∧
    lexemes rest = ⟨lexeme :: back, none⟩ ∧ lexeme.node? = some (label.kind, label.value)

/-- How the nodes of a selector, in document order, stand to its text. -/
structure LabelsOf (selector : List Char) (labels : List Label) : Prop where
  ordered : labels.Pairwise fun first second => first.offset ≤ second.offset
  within : ∀ label ∈ labels, label.offset ≤ byteLength selector
  starts : ∀ label ∈ labels, label.kind ≠ .selector → StartsAt selector label

theorem labels_of_parse {selector : String} {tree : Tree} (h : parse selector = .ok tree) :
    LabelsOf selector.toList tree.labels := by
  obtain ⟨first, others, -, hlexemes, rfl⟩ := parse_eq_ok_iff.1 h
  have hlaid := laid_list 0 first others
  have hlabels := filterMap_label_of_shows (Tree.shows_walk_graftAll (listBranches 0 first others))
  rw [← Tree.labels] at hlabels
  have hwidth : width (listLexemes first others) = byteLength selector.toList := by
    rw [width, written_of_lexemes hlexemes]
  refine ⟨?_, ?_, ?_⟩
  · rw [hlabels]
    exact List.pairwise_map.2 hlaid.ordered
  · rw [hlabels]
    refine List.forall_mem_map.2 fun part hpart => ?_
    have hwithin := hlaid.within part hpart
    omega
  · rw [hlabels]
    refine List.forall_mem_map.2 fun part hpart hkind => ?_
    obtain ⟨front, lexeme, back, hsplit, hoffset, hnode⟩ := hlaid.stands part hpart hkind
    rw [hsplit] at hlexemes
    obtain ⟨rest, hrest, hback⟩ := exists_lexemes_of_append hlexemes
    refine ⟨written Lexeme.text front, rest, lexeme, back, hrest, ?_, hback, hnode⟩
    rw [hoffset, width]
    omega

end SelectorLint.Selector
