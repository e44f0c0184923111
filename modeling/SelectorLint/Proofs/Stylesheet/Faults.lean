import Mathlib.Data.List.Basic
import SelectorLint.Proofs.Stylesheet.Headings
import SelectorLint.Proofs.Text.Finding

/-!
# What the faults of a stylesheet point at

The fault of a stylesheet that does not parse is at the offset of what it is about, and what stands there is
told by the fault (`Fault.starts`, `parse_fault_inside`). It comes from one of three sides.

* A text that cannot be read starts with what is not closed in it, other than a quoted text in an interpolation,
  which is found further along (`found_of_interpolationTail`).
* A lexeme that cannot be taken is a brace, and is at fault itself (`starts_of_take`).
* At the end, a block may be open. Its brace was read long before. The open blocks of a scan are those braces among
  the lexemes after which all blocks are closed (`Opened`), and the fault is about the innermost of them.
-/

namespace SelectorLint.Stylesheet

open Text

/-- What can stand at the offset of a fault. -/
def Fault.starts : Fault → List (List Char)
  | missingHeading | unclosedBlock => [['{']]
  | unexpectedClose => [['}']]
  | unclosedComment => [['/', '*']]
  | unclosedInterpolation => [['#', '{']]
  | unclosedString => quotes

/-! ## Texts that cannot be read -/

/-- The trouble of an interpolation is that it is not closed itself, or that a quoted text in it is not. -/
theorem found_of_interpolationTail {before inner : Nat} {text : List Char} {trouble : Trouble Fault}
    (h : interpolationTail before inner text = .error trouble) :
    trouble = ⟨0, .unclosedInterpolation⟩ ∨ trouble.cause = .unclosedString ∧
      ∃ quote, isQuote quote ∧ FoundFrom before text trouble.distance [quote] := by
  fun_induction interpolationTail before inner text with
  | case1 =>
    cases h
    exact .inl rfl
  | case2 before inner rest ih =>
    rcases ih (map_eq_error_iff.1 h) with hself | ⟨hcause, quote, hquote, hfound⟩
    · exact .inl hself
    · exact .inr ⟨hcause, quote, hquote, hfound.append_left ['{'] rfl⟩
  | case3 => cases h
  | case4 before rest outer ih =>
    rcases ih (map_eq_error_iff.1 h) with hself | ⟨hcause, quote, hquote, hfound⟩
    · exact .inl hself
    · exact .inr ⟨hcause, quote, hquote, hfound.append_left ['}'] rfl⟩
  | case5 before inner c rest _ _ hquote hnone =>
    cases h
    exact .inr ⟨rfl, c, hquote, foundFrom_head before [c] rest⟩
  | case6 before inner c rest _ _ _ tail after htail ih =>
    rcases ih (map_eq_error_iff.1 h) with hself | ⟨hcause, quote, hquote, hfound⟩
    · exact .inl hself
    · obtain rfl := quotedTail_append htail
      exact .inr ⟨hcause, quote, hquote, hfound.append_left (c :: tail) (by rw [byteLength_cons, Nat.add_assoc])⟩
  | case7 before inner c rest _ _ _ ih =>
    rcases ih (map_eq_error_iff.1 h) with hself | ⟨hcause, quote, hquote, hfound⟩
    · exact .inl hself
    · exact .inr ⟨hcause, quote, hquote, hfound.append_left [c] rfl⟩

/-- The trouble of a reading is found in the text that was read. Blocks are of no concern to a reader. -/
structure Found (text : List Char) (trouble : Trouble Fault) : Prop where
  ne_unclosedBlock : trouble.cause ≠ .unclosedBlock
  found : ∃ start ∈ trouble.cause.starts, FoundAt text trouble.distance start

section Reading

variable {rest : List Char} {trouble : Trouble Fault}

theorem found_of_readSlash {dialect : Dialect} {brackets : Nat}
    (h : readSlash dialect brackets rest = .error trouble) : Found ('/' :: rest) trouble := by
  unfold readSlash at h
  split at h
  next inner =>
    split at h
    · cases h
    · cases h
      exact ⟨by decide, ['/', '*'], by decide, foundAt_zero ['/', '*'] inner⟩
  next => split at h <;> cases h
  next => cases h

theorem found_of_readHash (h : readHash rest = .error trouble) : Found ('#' :: rest) trouble := by
  unfold readHash at h
  split at h
  next inner =>
    rcases found_of_interpolationTail (map_eq_error_iff.1 h) with rfl | ⟨hcause, quote, hquote, hfound⟩
    · exact ⟨by decide, ['#', '{'], by decide, foundAt_zero ['#', '{'] inner⟩
    · exact ⟨by simp [hcause], [quote], hcause ▸ mem_quotes_of_isQuote hquote, hfound.foundAt ['#', '{'] rfl⟩
  next => cases h

theorem found_of_readQuoted {quote : Char} (hquote : isQuote quote)
    (h : readQuoted quote rest = .error trouble) : Found (quote :: rest) trouble := by
  unfold readQuoted at h
  split at h
  · cases h
  · cases h
    exact ⟨by decide, [quote], mem_quotes_of_isQuote hquote, foundAt_zero [quote] rest⟩

theorem found_of_next {dialect : Dialect} {brackets : Nat} {c : Char}
    (h : next dialect brackets c rest = .error trouble) : Found (c :: rest) trouble := by
  unfold next at h
  split at h
  next hc =>
    subst hc
    exact found_of_readSlash h
  split at h
  next hc =>
    subst hc
    exact found_of_readHash h
  split at h
  next hquote => exact found_of_readQuoted hquote h
  next => cases h

end Reading

/-! ## Blocks that are closed and open -/

/-- Lexemes in which each brace has its partner. -/
inductive Closed : List Lexeme → Prop where
  | nil : Closed []
  | other {lexeme rest} (hopen : lexeme ≠ .openBrace) (hclose : lexeme ≠ .closeBrace) (others : Closed rest) :
      Closed (lexeme :: rest)
  | block {inner rest} (items : Closed inner) (others : Closed rest) :
      Closed (.openBrace :: inner ++ .closeBrace :: rest)

theorem Closed.append {front back : List Lexeme} (hfront : Closed front) (hback : Closed back) :
    Closed (front ++ back) := by
  induction hfront with
  | nil => exact hback
  | other hopen hclose _ ih => exact .other hopen hclose ih
  | block items _ _ ih =>
    rw [List.append_assoc]
    exact .block items ih

/-- After the lexemes `past`, just these blocks are open, the innermost first: between the brace of each and
that of the next inner one, or the end, all others are closed. -/
inductive Opened : List Lexeme → List (Placed Block) → Prop where
  | outside {past} (closed : Closed past) : Opened past []
  | inside {before after block blocks} (around : Opened before blocks)
      (offset_eq : block.offset = byteLength (written Lexeme.text before)) (closed : Closed after) :
      Opened (before ++ .openBrace :: after) (block :: blocks)

namespace Opened

variable {past : List Lexeme} {blocks : List (Placed Block)} {scan after : Scan} {offset : Nat}

theorem new : Opened [] Scan.new.blocks := .outside .nil

/-- What is closed in itself changes nothing. -/
theorem append (h : Opened past blocks) {more : List Lexeme} (hmore : Closed more) :
    Opened (past ++ more) blocks := by
  cases h with
  | outside closed => exact .outside (closed.append hmore)
  | inside around offset_eq closed =>
    rw [List.append_assoc]
    exact .inside around offset_eq (closed.append hmore)

/-- A closing brace closes the innermost block. -/
theorem close {block : Placed Block} (h : Opened past (block :: blocks)) :
    Opened (past ++ [.closeBrace]) blocks := by
  cases h with
  | inside around _ closed =>
    rw [List.append_assoc]
    exact around.append (.block closed .nil)

theorem take (h : Opened past scan.blocks) {lexeme : Lexeme} (hoffset : offset = byteLength (written Lexeme.text past))
    (htake : scan.take ⟨offset, lexeme⟩ = .ok after) : Opened (past ++ [lexeme]) after.blocks := by
  cases lexeme with
  | openBrace =>
    have hopen : scan.openBlock offset = .ok after := htake
    unfold Scan.openBlock at hopen
    split at hopen
    · cases hopen
    · cases hopen
      exact .inside h hoffset .nil
  | closeBrace =>
    have hclose : scan.closeBlock offset = .ok after := htake
    unfold Scan.closeBlock at hclose
    split at hclose
    next => cases hclose
    next block blocks heq =>
      cases hclose
      rw [heq] at h
      exact h.close
  | semicolon =>
    cases htake
    exact h.append (.other (by decide) (by decide) .nil)
  | _ =>
    cases htake
    rw [Scan.blocks_extend]
    exact h.append (.other (by simp) (by simp) .nil)

theorem runs (h : Opened past scan.blocks) {pieces : List Lexeme}
    (hruns : Runs Lexeme.text Scan.take scan (byteLength (written Lexeme.text past)) pieces after) :
    Opened (past ++ pieces) after.blocks :=
  hruns.invariant (fun past scan => Opened past scan.blocks) (fun _ _ _ _ hpast htake => hpast.take rfl htake) h

end Opened

/-! ## Faults -/

/-- A lexeme that cannot be taken is a brace, and is at fault itself. -/
theorem starts_of_take {scan : Scan} {offset : Nat} {lexeme : Lexeme} {fault : Located Fault}
    (h : scan.take ⟨offset, lexeme⟩ = .error fault) :
    fault.offset = offset ∧ lexeme.text ∈ fault.cause.starts ∧ fault.cause ≠ .unclosedBlock := by
  cases lexeme with
  | openBrace =>
    have hopen : scan.openBlock offset = .error fault := h
    unfold Scan.openBlock at hopen
    split at hopen
    · cases hopen
      exact ⟨rfl, List.mem_singleton_self _, by simp⟩
    · cases hopen
  | closeBrace =>
    have hclose : scan.closeBlock offset = .error fault := h
    unfold Scan.closeBlock at hclose
    split at hclose
    · cases hclose
      exact ⟨rfl, List.mem_singleton_self _, by simp⟩
    · cases hclose
  | _ => cases h

/-- The text is read to its end, and the brace at the offset opens the innermost block that is open there. -/
def OpensLast (dialect : Dialect) (text : List Char) (offset : Nat) : Prop :=
  ∃ before after, lexemes dialect text = ⟨before ++ .openBrace :: after, none⟩ ∧ Closed after ∧
    byteLength (written Lexeme.text before) = offset

/-- What the fault is about stands at its offset. -/
structure Blames (dialect : Dialect) (text : List Char) (fault : Located Fault) : Prop where
  found : ∃ start ∈ fault.cause.starts, FoundAt text fault.offset start
  last : fault.cause = .unclosedBlock → OpensLast dialect text fault.offset

namespace Blames

variable {dialect : Dialect} {text : List Char} {fault : Located Fault}

theorem offset_lt (h : Blames dialect text fault) : fault.offset < byteLength text := by
  obtain ⟨start, hmem, hfound⟩ := h.found
  exact hfound.offset_lt hmem (by cases fault.cause <;> decide)

/-- The fault of the first lexeme that is not taken. -/
theorem of_run {after : Nat} {rest : List Char} {pieces : List Lexeme}
    (hcuts : Cuts dialect 0 text pieces after rest)
    (h : (placed Lexeme.text 0 pieces).foldlM Scan.take Scan.new = .error fault) : Blames dialect text fault := by
  obtain ⟨front, lexeme, back, scan, rfl, -, htake⟩ := exists_of_foldlM_eq_error h
  obtain ⟨hoffset, hmem, hcause⟩ := starts_of_take htake
  refine ⟨⟨lexeme.text, hmem, written Lexeme.text front, written Lexeme.text back ++ rest, ?_, ?_⟩,
    fun hlast => absurd hlast hcause⟩
  · rw [← hcuts.written_append_rest, written_append, written_cons]
    simp
  · rw [hoffset, Nat.zero_add]

/-- The trouble of the lexing. It lies after the lexemes, in the rest of the text. -/
theorem of_trouble {after : Nat} {rest : List Char} {pieces : List Lexeme} {trouble : Trouble Fault}
    (hcuts : Cuts dialect 0 text pieces after rest) (h : Found rest trouble) :
    Blames dialect text (trouble.locate (byteLength (written Lexeme.text pieces))) := by
  obtain ⟨start, hmem, hfound⟩ := h.found
  have hmore := hfound.append_left (written Lexeme.text pieces)
  rw [hcuts.written_append_rest] at hmore
  exact ⟨⟨start, hmem, hmore⟩, fun hlast => absurd hlast h.ne_unclosedBlock⟩

/-- The innermost block that is open at the end. -/
theorem of_finish {pieces : List Lexeme} {scan : Scan} (hlexemes : lexemes dialect text = ⟨pieces, none⟩)
    (hwritten : written Lexeme.text pieces = text) (hopened : Opened pieces scan.blocks)
    (h : scan.finish = .error fault) :
    Blames dialect text fault := by
  unfold Scan.finish at h
  split at h
  next => cases h
  next block blocks heq =>
    cases h
    rw [heq] at hopened
    cases hopened with
    | @inside before after _ _ around offset_eq closed =>
      refine ⟨⟨['{'], List.mem_singleton_self _, written Lexeme.text before, written Lexeme.text after, ?_,
        offset_eq.symm⟩,
        fun _ => ⟨before, after, hlexemes, closed, offset_eq.symm⟩⟩
      rw [← hwritten, written_append, written_cons, List.append_assoc]
      rfl

end Blames

/-- What a fault is about stands at its offset, inside of the stylesheet. For a block that is not closed, that is
the brace of the innermost block that is open at the end. -/
theorem parse_fault_inside {dialect : Dialect} {source : String} {fault : Located Fault}
    (h : parse dialect source = .error fault) :
    fault.offset < byteLength source.toList ∧ Blames dialect source.toList fault := by
  suffices hblames : Blames dialect source.toList fault from ⟨hblames.offset_lt, hblames⟩
  obtain ⟨after, rest, hcuts, hstops⟩ := exists_cuts dialect 0 source.toList
  change Cuts dialect 0 source.toList (lexemes dialect source.toList).pieces after rest at hcuts
  change Stops dialect after rest (lexemes dialect source.toList).trouble at hstops
  unfold parse collect at h
  generalize hlexemes : lexemes dialect source.toList = lexing at hcuts hstops h
  obtain ⟨pieces, trouble⟩ := lexing
  cases hrun : (placed Lexeme.text 0 pieces).foldlM Scan.take Scan.new with
  | error failure =>
    rw [hrun] at h
    cases h
    exact .of_run hcuts hrun
  | ok scan =>
    rw [hrun] at h
    rcases hstops with ⟨rfl, rfl⟩ | ⟨c, more, failure, rfl, hnext, rfl⟩
    · have hwritten := hcuts.written_append_rest
      rw [List.append_nil] at hwritten
      have hruns : Runs Lexeme.text Scan.take .new 0 pieces scan := hrun
      have hopened := Opened.new.runs hruns
      rw [List.nil_append] at hopened
      exact .of_finish hlexemes hwritten hopened h
    · cases h
      exact .of_trouble hcuts (found_of_next hnext)

/-- Of the rules `a` and `d`, which are open, `d` is the inner one. A brace in a quoted text or in brackets closes
nothing. -/
theorem parse_fault_inside_nested :
    parse .scss "a \x7b b \x7b c: \"\x7d\" \x7d d \x7b e \x7b \x7d (\x7d" = .error ⟨19, .unclosedBlock⟩ ∧
      OpensLast .scss "a \x7b b \x7b c: \"\x7d\" \x7d d \x7b e \x7b \x7d (\x7d".toList 19 := by
  have hparse : parse .scss "a \x7b b \x7b c: \"\x7d\" \x7d d \x7b e \x7b \x7d (\x7d" =
      .error ⟨19, .unclosedBlock⟩ := by decide +kernel
  exact ⟨hparse, (parse_fault_inside hparse).2.last rfl⟩

end SelectorLint.Stylesheet
