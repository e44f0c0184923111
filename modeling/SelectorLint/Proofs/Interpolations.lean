import Mathlib.Data.List.Basic
import SelectorLint.Proofs.Stylesheet.Cutting
import SelectorLint.Selector.Assembly
import SelectorLint.Stylesheet.Scan

/-!
# Two readings of interpolations

An interpolation is read twice: once in the stylesheet, where a quoted text in it may hold any braces, and
once in the selector, where all braces count. The two readings end at the same place if and only if the
braces stand in pairs, those in quoted texts included (`interpolationTail_agrees`). It is enough that they
stand in pairs in each quoted text. A lone brace in quotes makes the selector end too early, or not at all
(`interpolationTail_lone_brace`).
-/

namespace SelectorLint

open Text Selector.Grammar

/-- The quoted texts that are met when a text is read from left to right. -/
def quotesIn (text : List Char) : List (List Char) :=
  match text with
  | [] => []
  | c :: rest =>
    if isQuote c then
      match _h : quotedTail false c rest with
      | none => []
      | some (tail, rest') => (c :: tail) :: quotesIn rest'
    else quotesIn rest
termination_by text.length
decreasing_by
  · have := length_le_of_append_eq (quotedTail_append ‹_›)
    simp only [List.length_cons]
    omega
  · simp

theorem quotesIn_cons_of_not_isQuote {c : Char} (hc : ¬isQuote c) (rest : List Char) :
    quotesIn (c :: rest) = quotesIn rest := by
  rw [quotesIn, if_neg hc]

theorem quotesIn_quoted {c : Char} (hc : isQuote c) {rest tail after : List Char}
    (h : quotedTail false c rest = some (tail, after)) :
    quotesIn (c :: rest) = (c :: tail) :: quotesIn after := by
  rw [quotesIn, if_pos hc]
  split
  next hnone =>
    rw [h] at hnone
    cases hnone
  next hsome =>
    rw [h] at hsome
    cases hsome
    rfl

namespace Stylesheet

variable {before inner : Nat} {text piece rest : List Char}

/-- What is read ends with the brace that closes the interpolation. -/
theorem exists_body_of_interpolationTail
    (h : interpolationTail before inner text = .ok (piece, rest)) :
    ∃ body, piece = body ++ ['}'] := by
  fun_induction interpolationTail before inner text generalizing piece rest with
  | case1 | case5 => cases h
  | case3 =>
    cases h
    exact ⟨[], rfl⟩
  | case2 _ _ _ ih | case4 _ _ _ ih | case6 _ _ _ _ _ _ _ _ _ _ ih | case7 _ _ _ _ _ _ _ ih =>
    obtain ⟨⟨tail, after⟩, htail, heq⟩ := map_eq_ok_iff.1 h
    cases heq
    obtain ⟨body, rfl⟩ := ih htail
    exact ⟨_ ++ body, (List.append_assoc _ _ _).symm⟩

/-- The reading of the selector follows that of the stylesheet through braces outside of quotes, and goes
through each quoted text in one step if the braces stand in pairs there. -/
theorem selector_interpolationTail_of_balanced
    (h : interpolationTail before inner text = .ok (piece, rest))
    (hquotes : ∀ quoted ∈ quotesIn piece, Balanced quoted) :
    Selector.interpolationTail inner text = some (piece, rest) := by
  fun_induction interpolationTail before inner text generalizing piece rest with
  | case1 | case5 => cases h
  | case2 before inner tail ih =>
    obtain ⟨⟨body, after⟩, hbody, heq⟩ := map_eq_ok_iff.1 h
    cases heq
    rw [List.singleton_append, quotesIn_cons_of_not_isQuote (by decide)] at hquotes
    rw [Selector.interpolationTail, ih hbody hquotes]
    rfl
  | case3 =>
    cases h
    rfl
  | case4 before tail outer ih =>
    obtain ⟨⟨body, after⟩, hbody, heq⟩ := map_eq_ok_iff.1 h
    cases heq
    rw [List.singleton_append, quotesIn_cons_of_not_isQuote (by decide)] at hquotes
    rw [Selector.interpolationTail, ih hbody hquotes]
    rfl
  | case6 before inner c tail hopen hclose hquote quoted after hquoted ih =>
    obtain ⟨⟨body, final⟩, hbody, heq⟩ := map_eq_ok_iff.1 h
    cases heq
    have hagain := quotedTail_append_of_quotedTail (Selector.ne_backslash_of_isQuote hquote) hquoted body
    rw [List.cons_append, quotesIn_quoted hquote hagain] at hquotes
    obtain ⟨hbalanced, hrest⟩ := List.forall_mem_cons.1 hquotes
    rw [← quotedTail_append hquoted, ← List.cons_append,
      Selector.interpolationTail_append_of_balanced hbalanced, ih hbody hrest]
    rfl
  | case7 before inner c tail hopen hclose hquote ih =>
    obtain ⟨⟨body, after⟩, hbody, heq⟩ := map_eq_ok_iff.1 h
    cases heq
    rw [List.singleton_append, quotesIn_cons_of_not_isQuote hquote] at hquotes
    rw [Selector.interpolationTail, ih hbody hquotes]
    · rfl
    · exact hopen
    · exact hclose

end Stylesheet

/-- The selector reads a piece to its last brace just when the braces before stand in pairs. -/
theorem Selector.interpolationTail_eq_some_iff {body rest : List Char} :
    interpolationTail 0 (body ++ '}' :: rest) = some (body ++ ['}'], rest) ↔ Balanced body := by
  constructor
  · intro h
    obtain ⟨inner, hinner, heq⟩ := closesBraces_of_interpolationTail h
    rw [List.append_cancel_right heq]
    exact hinner
  · intro h
    exact interpolationTail_of_balanced h rest

/-- An interpolation that was read in a stylesheet is read to the same end in a selector, as one piece of
a word, if and only if its braces stand in pairs, no matter whether they are quoted. They do if they stand
in pairs in each of its quoted texts. -/
theorem interpolationTail_agrees {text piece rest : List Char}
    (h : Stylesheet.interpolationTail 2 0 text = .ok (piece, rest)) :
    (Selector.interpolationTail 0 text = some (piece, rest) ↔ Balanced piece.dropLast) ∧
      ((∀ quoted ∈ quotesIn piece, Balanced quoted) → Balanced piece.dropLast) ∧
      (Balanced piece.dropLast → ∀ before, Selector.word before ('#' :: '{' :: text) =
        (Selector.word (before + 2 + byteLength piece) rest).map (prepend ('#' :: '{' :: piece))) := by
  have hiff : Selector.interpolationTail 0 text = some (piece, rest) ↔ Balanced piece.dropLast := by
    obtain ⟨body, rfl⟩ := Stylesheet.exists_body_of_interpolationTail h
    rw [← Stylesheet.interpolationTail_append h, List.append_assoc, List.singleton_append,
      List.dropLast_concat]
    exact Selector.interpolationTail_eq_some_iff
  refine ⟨hiff, ?_, ?_⟩
  · intro hquotes
    exact hiff.1 (Stylesheet.selector_interpolationTail_of_balanced h hquotes)
  · intro hbalanced before
    exact Selector.word_interpolation (hiff.2 hbalanced) before

/-- `#{"{}"}` is read alike. -/
theorem interpolationTail_agrees_paired :
    Selector.interpolationTail 0 ['"', '{', '}', '"', '}'] = some (['"', '{', '}', '"', '}'], []) ∧
      ∀ before, Selector.word before ['#', '{', '"', '{', '}', '"', '}'] =
        (Selector.word (before + 2 + 5) []).map (prepend ['#', '{', '"', '{', '}', '"', '}']) := by
  have hread : Stylesheet.interpolationTail 2 0 ['"', '{', '}', '"', '}'] =
      .ok (['"', '{', '}', '"', '}'], []) := by
    decide +kernel
  have hquotes : ∀ quoted ∈ quotesIn ['"', '{', '}', '"', '}'], Balanced quoted := by
    have honly : quotesIn ['"', '{', '}', '"', '}'] = [['"', '{', '}', '"']] := by decide +kernel
    intro quoted hquoted
    rw [honly] at hquoted
    obtain rfl := List.mem_singleton.1 hquoted
    exact .character (by decide) (by decide) (.braces .nil (.character (by decide) (by decide) .nil))
  obtain ⟨hiff, hpaired, hword⟩ := interpolationTail_agrees hread
  exact ⟨hiff.2 (hpaired hquotes), hword (hpaired hquotes)⟩

/-- With a lone brace in quotes the selector stops inside of `#{"}"}`, and it finds no end of `#{"{"}`. So
a selector that the stylesheet takes as a whole is not read. -/
theorem interpolationTail_lone_brace :
    Stylesheet.interpolationTail 2 0 ['"', '}', '"', '}'] = .ok (['"', '}', '"', '}'], []) ∧
      Selector.interpolationTail 0 ['"', '}', '"', '}'] = some (['"', '}'], ['"', '}']) ∧
      Stylesheet.interpolationTail 2 0 ['"', '{', '"', '}'] = .ok (['"', '{', '"', '}'], []) ∧
      Selector.interpolationTail 0 ['"', '{', '"', '}'] = none ∧
      Stylesheet.parse .scss "#\x7b\"\x7d\"\x7d \x7b\x7d" = .ok [⟨"#\x7b\"\x7d\"\x7d", 0, .root, 0⟩] ∧
      Selector.parse "#\x7b\"\x7d\"\x7d" = .error ⟨4, .unclosedString⟩ := by
  decide +kernel

end SelectorLint
