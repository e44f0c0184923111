import SelectorLint.Proofs.Composition
import SelectorLint.Proofs.Findings
import SelectorLint.Proofs.Selector.Groups

/-!
# Trailing interpolations

Whether a selector ends in an interpolation is told from its text alone. The text may have `#{` and `}` in quoted
texts, brackets, comments and earlier words too, but none of this matters: the last character belongs to the last
item of the last group, and of all lexemes only a word can end in a brace. So the test on the text is one on the last
node of the tree (`endsInInterpolation_iff_lastNode?`).
-/

namespace SelectorLint

open Text

namespace Selector

open Branch Grammar

/-! ## The last node -/

namespace Tree

/-- The last child of the last group. -/
def lastNode? (tree : Tree) : Option Node := do
  let group ← tree.groups.back?
  let child ← (tree.children group).back?
  tree.nodes[child]?

/-- The last of the branches under a node is held at the last of their numbers. -/
theorem exists_holds_last {tree : Tree} {parent position start : Nat} {front : List Branch} {last : Branch}
    (h : HoldAll tree parent position start (front ++ [last])) :
    ∃ place id, (starts start (front ++ [last])).getLast? = some id ∧ last.Holds tree parent place id := by
  induction front generalizing position start with
  | nil => exact ⟨position, start, rfl, h.1⟩
  | cons branch front ih =>
    obtain ⟨place, id, hlast, hholds⟩ := ih h.2
    refine ⟨place, id, ?_, hholds⟩
    rw [List.cons_append, starts, List.getLast?_cons, hlast]
    rfl

theorem lastNode?_graftAll (front children : List Branch) (label leaf : Label) :
    (Tree.empty.graftAll 0 (front ++ [.node label (children ++ [.leaf leaf])])).lastNode?.map Node.label =
      some leaf := by
  have hgrown := grown_graftAll (show 0 < Tree.empty.size by simp)
    (front ++ [.node label (children ++ [.leaf leaf])])
  have hgroups := children_zero_graftAll (front ++ [.node label (children ++ [.leaf leaf])])
  generalize Tree.empty.graftAll 0 (front ++ [.node label (children ++ [.leaf leaf])]) = tree at *
  obtain ⟨_, group, hgroup, hholds⟩ := exists_holds_last hgrown.holds
  obtain ⟨_, child, hchild, hleaf⟩ := exists_holds_last hholds.2
  have hlastGroup : tree.groups.back? = some group := by
    rw [groups, ← Array.getLast?_toList, hgroups]
    exact hgroup
  have hlastChild : (tree.children group).back? = some child := by
    rw [← Array.getLast?_toList, children_of_holds hholds]
    exact hchild
  simp only [lastNode?, hlastGroup, hlastChild, hleaf.1, Option.bind_eq_bind, Option.bind_some, Option.map_some]
  rfl

end Tree

/-! ## The last item -/

/-- The node of a part that ends a group is the last one of the group. -/
theorem exists_itemBranches_append_part (items : List Item) (piece : Part) (joins : Bool) (offset : Nat) :
    ∃ front place, itemBranches joins offset (items ++ [.part piece]) = front ++ [partLeaf ⟨place, piece⟩] := by
  induction items generalizing joins offset with
  | nil => exact ⟨[], offset, by simp [itemBranches]⟩
  | cons item items ih =>
    cases item with
    | blank c =>
      obtain ⟨front, place, heq⟩ := ih false (offset + c.utf8Size)
      rw [List.cons_append, itemBranches, heq, ← List.append_assoc]
      exact ⟨_, place, rfl⟩
    | part other =>
      obtain ⟨front, place, heq⟩ := ih (joinsAfter joins other.sort) (offset + byteLength other.text)
      rw [List.cons_append, itemBranches, heq]
      exact ⟨_ :: front, place, rfl⟩
    | call double name first others =>
      obtain ⟨front, place, heq⟩ := ih true (offset + width (Item.call double name first others).lexemes)
      rw [List.cons_append, itemBranches_call, heq]
      exact ⟨_ :: front, place, rfl⟩

theorem groupBranch_append (front : List Branch) (last : Branch) :
    ∃ label, groupBranch (front ++ [last]) = [.node label (front ++ [last])] := by
  cases front with
  | nil => exact ⟨_, rfl⟩
  | cons branch front => exact ⟨_, rfl⟩

/-- A list ends in its last group. -/
theorem exists_last_group (first : List Item) (others : List (List Item)) :
    ∃ group ∈ first :: others, ∃ front branches offset,
      listLexemes first others = front ++ groupLexemes group ∧
      listBranches 0 first others = branches ++ groupBranch (itemBranches false offset group) := by
  rcases List.eq_nil_or_concat others with rfl | ⟨init, last, rfl⟩
  · exact ⟨first, by simp, [], [], 0, by simp [listLexemes, othersLexemes], by simp [listBranches, othersBranches]⟩
  · refine ⟨last, by simp, groupLexemes first ++ othersLexemes init ++ [.comma], listBranches 0 first init,
      0 + width (listLexemes first init) + 1, ?_, ?_⟩
    · simp [listLexemes, othersLexemes_append, othersLexemes]
    · rw [List.concat_eq_append, listBranches_append]
      simp [listBranches, othersBranches]

/-- The item ends in white space or in a parenthesis, or it is a part. -/
theorem Item.Valid.last_cases {item : Item} (h : item.Valid) :
    (∃ c, (written Lexeme.text item.lexemes).getLast? = some c ∧ (isSpace c ∨ c = ')')) ∨
      ∃ piece, item = .part piece ∧ piece.WellFormed := by
  cases item with
  | blank c =>
    cases h with
    | blank hc => exact .inl ⟨c, rfl, .inl hc⟩
  | part piece => exact .inr ⟨piece, rfl, wellFormed_of_valid h⟩
  | call double name first others =>
    refine .inl ⟨')', ?_, .inr rfl⟩
    simp [Item.lexemes, Lexeme.text, List.getLast?_cons]

/-- A selector that ends in neither white space nor a parenthesis ends in a part, and its tree in the node of it. -/
theorem exists_last_part {selector : String} {tree : Tree} (h : parse selector = .ok tree)
    (hend : ∀ c, selector.toList.getLast? = some c → ¬isSpace c ∧ c ≠ ')') :
    ∃ (front : List Char) (piece : Part) (node : Node), selector.toList = front ++ piece.text ∧ piece.WellFormed ∧
      tree.lastNode? = some node ∧ node.kind = piece.kind ∧ node.value = piece.value := by
  obtain ⟨first, others, hvalid, hlexemes, rfl⟩ := parse_eq_ok_iff.1 h
  obtain ⟨group, hgroup, front, branches, offset, hfront, hbranches⟩ := exists_last_group first others
  have hwritten : selector.toList = written Lexeme.text front ++ written Lexeme.text (groupLexemes group) := by
    rw [← written_of_lexemes hlexemes, hfront, written_append]
  rcases List.eq_nil_or_concat group with rfl | ⟨items, item, hitems⟩
  · exact absurd rfl (hvalid.fits [] hgroup).ne_nil
  rw [List.concat_eq_append] at hitems
  subst hitems
  have hitem : item.Valid := hvalid.items _ hgroup item (by simp)
  rw [groupLexemes_append, written_append, ← List.append_assoc, groupLexemes, groupLexemes, List.append_nil]
    at hwritten
  rcases hitem.last_cases with ⟨c, hlast, hc⟩ | ⟨piece, rfl, hpiece⟩
  · -- the item's last character would be that of the selector
    have hends : selector.toList.getLast? = some c := by
      rw [hwritten, List.getLast?_append, hlast]
      rfl
    obtain ⟨hspace, hclose⟩ := hend c hends
    rcases hc with hc | hc
    · exact absurd hc hspace
    · exact absurd hc hclose
  · obtain ⟨children, place, hchildren⟩ := exists_itemBranches_append_part items piece false offset
    obtain ⟨label, hlabel⟩ := groupBranch_append children (partLeaf ⟨place, piece⟩)
    have hlastNode := Tree.lastNode?_graftAll branches children label ⟨piece.kind, piece.value, place⟩
    obtain ⟨node, hnode, hleaf⟩ := Option.map_eq_some_iff.1 hlastNode
    refine ⟨written Lexeme.text front ++ written Lexeme.text (groupLexemes items), piece, node, ?_, hpiece, ?_,
      congrArg Label.kind hleaf, congrArg Label.value hleaf⟩
    · simpa [Item.lexemes, Lexeme.text] using hwritten
    · rw [hbranches, hchildren, hlabel]
      exact hnode

/-! ## Braces -/

/-- Without backslashes, a word ends in a brace only as the end of an interpolation. -/
theorem exists_interpolation_of_letters {text : List Char} (h : Letters text) (hescape : '\\' ∉ text)
    (hlast : text.getLast? = some '}') : ∃ front inner, text = front ++ '#' :: '{' :: inner ++ ['}'] := by
  induction h with
  | nil => simp at hlast
  | @character c rest hc tail ih =>
    by_cases hrest : rest = []
    · subst hrest
      obtain rfl : c = '}' := by simpa using hlast
      exact absurd (isWordCharacter_iff.2 hc) (by decide)
    · rw [← List.singleton_append, List.getLast?_append_of_ne_nil _ hrest] at hlast
      obtain ⟨front, inner, heq⟩ := ih (by simp_all) hlast
      exact ⟨c :: front, inner, by rw [heq]; rfl⟩
  | escape => simp at hescape
  | @interpolation inner rest body tail ih =>
    by_cases hrest : rest = []
    · subst hrest
      exact ⟨[], inner, rfl⟩
    · have hsplit : '#' :: '{' :: inner ++ '}' :: rest = ('#' :: '{' :: inner ++ ['}']) ++ rest := by simp
      rw [hsplit, List.getLast?_append_of_ne_nil _ hrest] at hlast
      obtain ⟨front, last, heq⟩ := ih (by simp_all) hlast
      exact ⟨('#' :: '{' :: inner ++ ['}']) ++ front, last, by rw [hsplit, heq]; simp⟩

/-- The kinds of nodes that are made of words. -/
def wordKinds : List Kind := [.className, .id, .tag, .pseudo]

/-- Of all parts only a word ends in a brace, and its value does so too. -/
theorem Part.getLast?_text_iff {piece : Part} (h : piece.WellFormed) :
    piece.text.getLast? = some '}' ↔ piece.kind ∈ wordKinds ∧ piece.value.toList.getLast? = some '}' := by
  cases piece with
  | descendant blank => cases h
  | combinator sign => cases sign <;> decide
  | nesting | universal => decide
  | comment tail =>
    obtain ⟨⟨body, rfl⟩, -⟩ := h
    simp [text, kind, wordKinds, List.getLast?_cons]
  | attr body => simp [text, kind, wordKinds, List.getLast?_cons]
  | string quote tail =>
    obtain ⟨hquote, htail⟩ := h
    have hne : quote ≠ '}' := by
      rintro rfl
      exact absurd hquote (by decide)
    simp [text, kind, wordKinds, List.getLast?_cons, getLast?_of_quotedTail htail, hne]
  | className name | id name =>
    have hlast (c : Char) : (c :: name).getLast? = name.getLast? := List.getLast?_append_of_ne_nil [c] h.ne_nil
    simp [text, kind, value, wordKinds, hlast]
  | tag word => simp [text, kind, value, wordKinds]
  | pseudo double name => simp [text, kind, value, wordKinds]

theorem Part.exists_word {piece : Part} (h : piece.WellFormed) (hkind : piece.kind ∈ wordKinds) :
    ∃ lead name, piece.text = lead ++ name ∧ Word name := by
  cases piece with
  | className name => exact ⟨['.'], name, rfl, h⟩
  | id name => exact ⟨['#'], name, rfl, h⟩
  | tag name => exact ⟨[], name, rfl, h⟩
  | pseudo double name => exact ⟨_, name, rfl, h⟩
  | _ => simp [kind, wordKinds] at hkind

end Selector

namespace Policy

open Selector

/-- The test on the text agrees with the tree, for selectors without escapes, line feeds and empty interpolations that
end in neither white space nor a parenthesis: the text ends in an interpolation just when the last node of the tree is
made of a word that ends in a brace. -/
theorem endsInInterpolation_iff_lastNode? {selector : String} {tree : Tree} (h : parse selector = .ok tree)
    (hescape : '\\' ∉ selector.toList) (hline : '\n' ∉ selector.toList)
    (hempty : ¬['#', '{', '}'] <:+: selector.toList)
    (hend : ∀ c, selector.toList.getLast? = some c → ¬isSpace c ∧ c ≠ ')') :
    (endsInInterpolation selector.toList ↔ EndsInInterpolation selector.toList) ∧
      ∃ node, tree.lastNode? = some node ∧
        (endsInInterpolation selector.toList ↔
          node.kind ∈ wordKinds ∧ node.value.toList.getLast? = some '}') := by
  refine ⟨endsInInterpolation_iff, ?_⟩
  obtain ⟨front, piece, node, htext, hpiece, hnode, hkind, hvalue⟩ := exists_last_part h hend
  refine ⟨node, hnode, ?_⟩
  rw [endsInInterpolation_iff, hkind, hvalue, ← Part.getLast?_text_iff hpiece]
  constructor
  · rintro ⟨before, inner, hinterpolation, -, -⟩
    rw [← List.getLast?_append_of_ne_nil front (text_ne_nil hpiece), ← htext, hinterpolation]
    exact List.getLast?_concat
  · intro hlast
    obtain ⟨lead, name, hname, hword⟩ := Part.exists_word hpiece ((Part.getLast?_text_iff hpiece).1 hlast).1
    rw [hname, List.getLast?_append_of_ne_nil lead hword.ne_nil] at hlast
    have hmem : ∀ c ∈ name, c ∈ selector.toList := by
      intro c hc
      rw [htext, hname]
      simp [hc]
    obtain ⟨before, inner, hinner⟩ :=
      exists_interpolation_of_letters hword.letters (fun hc => hescape (hmem _ hc)) hlast
    refine ⟨front ++ lead ++ before, inner, by simp [htext, hname, hinner], ?_, ?_⟩
    · -- this is where empty interpolations matter: the pattern wants something between the braces
      rintro rfl
      exact hempty ⟨front ++ lead ++ before, [], by simp [htext, hname, hinner]⟩
    · intro hc
      exact hline (hmem _ (by simp [hinner, hc]))

/-- Braces in brackets, in a comment and in arguments, before a class that ends in an interpolation. -/
theorem endsInInterpolation_iff_lastNode?_class :
    ∃ tree node, parse "[a='#\x7b'] /*\x7d*/ p, :is(#\x7b$q\x7d) .b#\x7bc\x7bd\x7d\x7d" = .ok tree ∧
      tree.lastNode? = some node ∧ node.kind ∈ wordKinds ∧ node.value.toList.getLast? = some '}' := by
  have hok : (parse "[a='#\x7b'] /*\x7d*/ p, :is(#\x7b$q\x7d) .b#\x7bc\x7bd\x7d\x7d").isOk := by decide +kernel
  have hlast : "[a='#\x7b'] /*\x7d*/ p, :is(#\x7b$q\x7d) .b#\x7bc\x7bd\x7d\x7d".toList.getLast? = some '}' := by
    decide +kernel
  cases hparse : parse "[a='#\x7b'] /*\x7d*/ p, :is(#\x7b$q\x7d) .b#\x7bc\x7bd\x7d\x7d" with
  | error fault =>
    rw [hparse] at hok
    cases hok
  | ok tree =>
    obtain ⟨-, node, hnode, hiff⟩ := endsInInterpolation_iff_lastNode? hparse (by decide +kernel)
      (by decide +kernel) (by decide +kernel) (by
        intro c hc
        rw [hlast] at hc
        cases hc
        decide)
    exact ⟨tree, node, rfl, hnode, hiff.1 (by decide +kernel)⟩

end Policy

end SelectorLint
