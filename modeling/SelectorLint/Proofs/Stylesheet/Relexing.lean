import Mathlib.Data.List.Induction
import SelectorLint.Proofs.Interpolations
import SelectorLint.Proofs.Stylesheet.SelectorHeading

/-!
# Headings read by themselves

The lexemes of a heading are found again when its text is read on its own (`lexemes_headingOf`). Two things
are behind this. A statement begins with no brackets open, because nothing inside of brackets ends the one
before (`Sited`). And nothing that follows a lexeme is needed to read it, so that a cut text is cut the same
way without its rest (`Cuts.alone`).

In every dialect a heading ends with the last lexeme that leaves something in it (`exists_kept`).
-/

namespace SelectorLint.Stylesheet

open Text

/-! ## Without a rest -/

section Alone

variable {dialect : Dialect} {brackets after : Nat} {text rest : List Char} {pieces : List Lexeme}

/-- A lexeme that ends before a text ends before the front of it. -/
theorem EndsBefore.of_append {lexeme : Lexeme} {front : List Char}
    (h : EndsBefore dialect brackets lexeme (front ++ rest)) :
    EndsBefore dialect brackets lexeme front := by
  cases front with
  | nil =>
    refine ⟨fun body heq => ?_, fun _ => by simp, fun _ => by simp⟩
    obtain ⟨hbrackets, hdialect, hbody, -⟩ := h.line body heq
    exact ⟨hbrackets, hdialect, hbody, by simp⟩
  | cons c front => exact ⟨h.line, h.slash, h.hash⟩

/-- What was cut is cut the same way if nothing follows. -/
theorem Cuts.alone (h : Cuts dialect brackets text pieces after rest) :
    Cuts dialect brackets (written Lexeme.text pieces) pieces after [] := by
  induction h with
  | done => exact .done
  | @step brackets c more lexeme middle pieces after rest hfirst hothers ih =>
    have hends := endsBefore_of_next hfirst
    rw [← hothers.written_append_rest] at hends
    obtain ⟨more', htext, hnext⟩ := next_append hfirst hends.of_append
    rw [written_cons, htext]
    exact .step hnext ih

end Alone

/-! ## One lexeme -/

/-- The ways in which the first lexeme of a text is read. -/
inductive Reads (dialect : Dialect) (brackets : Nat) : Char → List Char → Lexeme → List Char → Prop where
  | comment {inner tail rest} (h : commentTail inner = some (tail, rest)) :
      Reads dialect brackets '/' ('*' :: inner) (.comment tail) rest
  | line {inner} (hbrackets : brackets = 0) (hdialect : dialect.hasLineComments) :
      Reads dialect brackets '/' ('/' :: inner) (.lineComment (inner.takeWhile (· ≠ '\n')))
        (inner.dropWhile (· ≠ '\n'))
  | interpolation {inner tail rest} (h : interpolationTail 2 0 inner = .ok (tail, rest)) :
      Reads dialect brackets '#' ('{' :: inner) (.interpolation tail) rest
  | quoted {c more tail rest} (hc : isQuote c) (h : quotedTail false c more = some (tail, rest)) :
      Reads dialect brackets c more (.quoted c tail) rest
  | single {c rest} (hc : ¬isQuote c) : Reads dialect brackets c rest (single brackets c) rest

theorem reads_of_next {dialect : Dialect} {brackets : Nat} {c : Char} {more rest : List Char}
    {lexeme : Lexeme} (h : next dialect brackets c more = .ok (lexeme, rest)) :
    Reads dialect brackets c more lexeme rest := by
  unfold next at h
  split at h
  next hslash =>
    subst hslash
    unfold readSlash at h
    split at h
    · split at h
      next htail =>
        cases h
        exact .comment htail
      · cases h
    · split at h
      next hline =>
        cases h
        rw [Bool.and_eq_true, decide_eq_true_eq] at hline
        exact .line hline.1 hline.2
      · cases h
        exact .single (by decide)
    · cases h
      exact .single (by decide)
  split at h
  next hhash =>
    subst hhash
    unfold readHash at h
    split at h
    · obtain ⟨⟨tail, after⟩, htail, heq⟩ := map_eq_ok_iff.1 h
      cases heq
      exact .interpolation htail
    · cases h
      exact .single (by decide)
  split at h
  next hquote =>
    unfold readQuoted at h
    split at h
    next htail =>
      cases h
      exact .quoted hquote htail
    · cases h
  next hquote =>
    cases h
    exact .single hquote

theorem isInner_single {brackets : Nat} (h : brackets ≠ 0) (c : Char) : (single brackets c).isInner := by
  unfold single
  split
  case h_1 | h_2 | h_3 | h_4 => rfl
  case h_5 | h_6 | h_7 =>
    rw [if_neg h]
    rfl
  case h_8 => split <;> rfl

/-! ## Where statements begin -/

/-- Braces and semicolons are lexemes only outside of brackets. -/
theorem brackets_eq_zero_of_next {dialect : Dialect} {brackets : Nat} {c : Char} {more rest : List Char}
    {lexeme : Lexeme} (h : next dialect brackets c more = .ok (lexeme, rest)) (hinner : ¬lexeme.isInner) :
    brackets = 0 := by
  cases reads_of_next h with
  | comment | line | interpolation | quoted => exact absurd rfl hinner
  | single =>
    by_contra hne
    exact hinner (isInner_single hne c)

theorem bracketsAfter_of_not_isInner {lexeme : Lexeme} (h : ¬lexeme.isInner) (brackets : Nat) :
    lexeme.bracketsAfter brackets = brackets := by
  cases lexeme with
  | openBrace | closeBrace | semicolon => rfl
  | _ => exact absurd rfl h

theorem bracketsAfter_zero_of_not_isSignificant {lexeme : Lexeme} (h : ¬lexeme.isSignificant) :
    lexeme.bracketsAfter 0 = 0 := by
  cases lexeme with
  | openBracket => exact absurd rfl h
  | _ => rfl

/-- What the scan knows of the brackets that are open before `rest`: none between statements, and otherwise
those that the lexemes of its statement have left open. -/
structure Sited (dialect : Dialect) (scan : Scan) (brackets : Nat) (rest : List Char) : Prop where
  idle : scan.statement = none → brackets = 0
  begun : ∀ statement, scan.statement = some statement → ∃ text pieces,
    statement.piece = pieces.reverse ∧ IsStatement pieces ∧ Cuts dialect 0 text pieces brackets rest

/-- A lexeme that is no part of a statement ends the one before. -/
theorem statement_of_take {scan after : Scan} {lexeme : Placed Lexeme} (hinner : ¬lexeme.piece.isInner)
    (h : scan.take lexeme = .ok after) : after.statement = none := by
  obtain ⟨offset, lexeme⟩ := lexeme
  cases lexeme with
  | openBrace =>
    have hopen : scan.openBlock offset = .ok after := h
    unfold Scan.openBlock at hopen
    split at hopen
    · cases hopen
    · cases hopen
      rfl
  | closeBrace =>
    have hclose : scan.closeBlock offset = .ok after := h
    unfold Scan.closeBlock at hclose
    split at hclose
    · cases hclose
    · cases hclose
      rfl
  | semicolon =>
    cases h
    rfl
  | _ => exact absurd rfl hinner

namespace Sited

variable {dialect : Dialect} {scan after : Scan} {brackets offset : Nat} {c : Char} {more rest : List Char}
  {lexeme : Lexeme}

theorem of_none (h : scan.statement = none) (rest : List Char) : Sited dialect scan 0 rest where
  idle _ := rfl
  begun _ heq := by
    rw [h] at heq
    cases heq

theorem extend (h : Sited dialect scan brackets (c :: more)) (hinner : lexeme.isInner)
    (hnext : next dialect brackets c more = .ok (lexeme, rest)) (offset : Nat) :
    Sited dialect (scan.extend ⟨offset, lexeme⟩) (lexeme.bracketsAfter brackets) rest := by
  obtain ⟨statement, blocks, rules⟩ := scan
  cases statement with
  | some statement =>
    obtain ⟨text, pieces, hpieces, hstatement, hcuts⟩ := h.begun statement rfl
    refine ⟨by simp [Scan.extend], fun statement heq => ?_⟩
    cases heq
    refine ⟨text, pieces ++ [lexeme], by simp [hpieces], ?_, hcuts.append (.single hnext)⟩
    exact isStatement_append hstatement (by simpa using hinner)
  | none =>
    obtain rfl := h.idle rfl
    by_cases hsignificant : lexeme.isSignificant
    · have hextend : Scan.extend ⟨none, blocks, rules⟩ ⟨offset, lexeme⟩ =
          ⟨some ⟨offset, [lexeme]⟩, blocks, rules⟩ := by
        simp only [Scan.extend, hsignificant, if_true]
      rw [hextend]
      refine ⟨by simp, fun statement heq => ?_⟩
      cases heq
      exact ⟨c :: more, [lexeme], rfl, ⟨⟨lexeme, [], rfl, hsignificant⟩, by simpa using hinner⟩, .single hnext⟩
    · -- still between statements: a bracket would have begun one
      rw [bracketsAfter_zero_of_not_isSignificant hsignificant, Scan.extend_eq_lengthened (.inr hsignificant)]
      exact of_none rfl rest

/-- One lexeme. -/
theorem take (h : Sited dialect scan brackets (c :: more))
    (hnext : next dialect brackets c more = .ok (lexeme, rest))
    (htake : scan.take ⟨offset, lexeme⟩ = .ok after) :
    Sited dialect after (lexeme.bracketsAfter brackets) rest := by
  by_cases hinner : lexeme.isInner
  · rw [Scan.take_of_isInner hinner] at htake
    cases htake
    exact h.extend hinner hnext offset
  · rw [bracketsAfter_of_not_isInner hinner, brackets_eq_zero_of_next hnext hinner]
    exact of_none (statement_of_take hinner htake) rest

end Sited

/-! ## The text of a heading -/

theorem exists_body_of_quotedTail {lineFeeds : Bool} {quote : Char} {text piece rest : List Char}
    (h : quotedTail lineFeeds quote text = some (piece, rest)) : ∃ body, piece = body ++ [quote] := by
  fun_induction quotedTail lineFeeds quote text generalizing piece rest with
  | case1 | case4 => cases h
  | case2 _ _ ih | case5 _ _ _ _ _ ih =>
    obtain ⟨⟨tail, after⟩, htail, heq⟩ := Option.map_eq_some_iff.1 h
    cases heq
    obtain ⟨body, rfl⟩ := ih htail
    exact ⟨_ ++ body, (List.append_assoc _ _ _).symm⟩
  | case3 =>
    cases h
    exact ⟨[], rfl⟩

/-- A lexeme of a stylesheet without line comments is a blank, or it ends in something else, which is a
slash if it is a comment. -/
theorem isBlank_or_ends_of_next {brackets : Nat} {c : Char} {more rest : List Char} {lexeme : Lexeme}
    (h : next .css brackets c more = .ok (lexeme, rest)) :
    (∃ blank, lexeme = .blank blank ∧ isBlank blank) ∨ ∃ front last, lexeme.text = front ++ [last] ∧
      ¬isBlank last ∧ ∀ tail, lexeme = .comment tail → last = '/' := by
  cases reads_of_next h with
  | @comment inner tail _ htail =>
    obtain ⟨body, rfl⟩ := (Selector.closesComment_of_commentTail htail).closed
    exact .inr ⟨'/' :: '*' :: (body ++ ['*']), '/', by simp [Lexeme.text], by decide, fun _ _ => rfl⟩
  | line _ hdialect => cases hdialect
  | interpolation htail =>
    obtain ⟨body, rfl⟩ := exists_body_of_interpolationTail htail
    exact .inr ⟨'#' :: '{' :: body, '}', rfl, by decide, by simp⟩
  | quoted hquote htail =>
    obtain ⟨body, rfl⟩ := exists_body_of_quotedTail htail
    refine .inr ⟨c :: body, c, rfl, ?_, by simp⟩
    rw [isQuote_iff] at hquote
    rcases hquote with rfl | rfl <;> decide
  | single =>
    by_cases hblank : isBlank c
    · have hsingle : single brackets c = .blank c := by
        rw [single_of_not_mem_marks (not_mem_marks_of_isBlank hblank), if_pos hblank]
      exact .inl ⟨c, hsingle, hblank⟩
    · refine .inr ⟨[], c, text_single brackets c, hblank, fun tail heq => ?_⟩
      have htext := text_single brackets c
      rw [heq] at htext
      cases htext

theorem ne_lineComment_of_next {brackets : Nat} {c : Char} {more rest : List Char} {lexeme : Lexeme}
    (h : next .css brackets c more = .ok (lexeme, rest)) (body : List Char) : lexeme ≠ .lineComment body := by
  intro heq
  obtain ⟨-, hdialect, -⟩ := (endsBefore_of_next h).line body heq
  cases hdialect

/-- Without line comments, a heading is the text of its lexemes. -/
theorem maskedText_of_cuts {brackets after : Nat} {text rest : List Char} {pieces : List Lexeme}
    (h : Cuts .css brackets text pieces after rest) : maskedText pieces = written Lexeme.text pieces := by
  induction h with
  | done => rfl
  | step hfirst _ ih =>
    rw [maskedText_cons, written_cons, masked_of_ne (ne_lineComment_of_next hfirst), ih]

/-- A lexeme that is no line comment is read the same way where there are none. -/
theorem next_css_of_next {dialect : Dialect} {brackets : Nat} {c : Char} {more rest : List Char}
    {lexeme : Lexeme} (h : next dialect brackets c more = .ok (lexeme, rest))
    (hline : ∀ body, lexeme ≠ .lineComment body) : next .css brackets c more = .ok (lexeme, rest) := by
  have hread := endsBefore_of_next h
  have hends : EndsBefore .css brackets lexeme rest :=
    ⟨fun body heq => absurd heq (hline body),
      fun heq => ⟨(hread.slash heq).1, by simp [Dialect.hasLineComments]⟩, hread.hash⟩
  obtain ⟨more', htext, hnext⟩ := next_append h hends
  rw [(splits_of_next h).append_eq] at htext
  obtain ⟨-, rfl⟩ := List.cons.inj htext
  exact hnext

/-- The lexeme leaves nothing at the end of a heading. -/
inductive Lexeme.Trails : Lexeme → Prop where
  | blank {c : Char} (h : isBlank c) : Trails (.blank c)
  | short {body : List Char} (h : byteLength (lineComment body).text < 4) : Trails (.lineComment body)

theorem Lexeme.Trails.isBlank_of_mem {lexeme : Lexeme} (h : lexeme.Trails) :
    ∀ c ∈ lexeme.masked, isBlank c := by
  intro c hc
  cases h with
  | blank hblank =>
    obtain rfl := List.mem_singleton.1 hc
    exact hblank
  | short hshort =>
    rw [Lexeme.masked, if_neg (Nat.not_le.2 hshort)] at hc
    rw [List.eq_of_mem_replicate hc]
    decide

/-- What a lexeme leaves in a heading does not end in a blank, if it is anything. -/
theorem trails_or_ends_of_next {dialect : Dialect} {brackets : Nat} {c : Char} {more rest : List Char}
    {lexeme : Lexeme} (h : next dialect brackets c more = .ok (lexeme, rest)) :
    lexeme.Trails ∨ ∃ front last, lexeme.masked = front ++ [last] ∧ ¬isBlank last := by
  by_cases hline : ∃ body, lexeme = .lineComment body
  · obtain ⟨body, rfl⟩ := hline
    by_cases hlong : 4 ≤ byteLength (Lexeme.lineComment body).text
    · refine .inr ⟨'/' :: '*' :: List.replicate (byteLength (Lexeme.lineComment body).text - 4) ' ' ++ ['*'],
        '/', ?_, by decide⟩
      rw [Lexeme.masked, if_pos hlong, List.append_assoc]
      rfl
    · exact .inl (.short (Nat.not_le.1 hlong))
  · have hne : ∀ body, lexeme ≠ .lineComment body := fun body heq => hline ⟨body, heq⟩
    rw [masked_of_ne hne]
    rcases isBlank_or_ends_of_next (next_css_of_next h hne) with ⟨blank, rfl, hblank⟩ | hends
    · exact .inl (.blank hblank)
    · obtain ⟨front, last, htext, hlast, -⟩ := hends
      exact .inr ⟨front, last, htext, hlast⟩

/-- The heading is what the lexemes leave up to the last one that leaves something. -/
theorem exists_kept {dialect : Dialect} {brackets after : Nat} {text rest : List Char} {pieces : List Lexeme}
    (h : Cuts dialect brackets text pieces after rest) :
    ∃ kept gap, pieces = kept ++ gap ∧ (∀ lexeme ∈ gap, lexeme.Trails) ∧
      headingOf pieces = maskedText kept := by
  induction pieces using List.reverseRecOn generalizing after rest with
  | nil => exact ⟨[], [], rfl, by simp, rfl⟩
  | append_singleton pieces lexeme ih =>
    obtain ⟨middle, between, hfront, hlast⟩ := h.exists_of_append
    cases hlast with
    | step hnext =>
      rcases trails_or_ends_of_next hnext with htrails | ⟨front, last, hmasked, hlast⟩
      · obtain ⟨kept, gap, rfl, hgap, hheading⟩ := ih hfront
        refine ⟨kept, gap ++ [lexeme], by simp, List.forall_mem_append.2 ⟨hgap, by simpa using htrails⟩, ?_⟩
        rw [← hheading, headingOf, maskedText_append, maskedText_cons, maskedText_nil, List.append_nil]
        exact trimEnd_append_blanks _ htrails.isBlank_of_mem
      · refine ⟨pieces ++ [lexeme], [], by simp, by simp, ?_⟩
        rw [headingOf, maskedText_append, maskedText_cons, maskedText_nil, List.append_nil, hmasked,
          ← List.append_assoc]
        exact trimEnd_concat_eq_iff.2 hlast

theorem exists_blanks_of_cuts {brackets after : Nat} {text rest : List Char} {pieces : List Lexeme}
    (h : Cuts .css brackets text pieces after rest) (htrails : ∀ lexeme ∈ pieces, lexeme.Trails) :
    ∃ blanks : List Char, pieces = blanks.map .blank ∧ ∀ c ∈ blanks, isBlank c := by
  induction h with
  | done => exact ⟨[], rfl, by simp⟩
  | step hfirst _ ih =>
    obtain ⟨hlexeme, hpieces⟩ := List.forall_mem_cons.1 htrails
    obtain ⟨blanks, rfl, hblanks⟩ := ih hpieces
    cases hlexeme with
    | @blank c hc => exact ⟨c :: blanks, rfl, List.forall_mem_cons.2 ⟨hc, hblanks⟩⟩
    | @short body _ => exact absurd rfl (ne_lineComment_of_next hfirst body)

/-- Without line comments, the heading is the text of its lexemes up to the last one that is not blank. -/
theorem exists_core {after : Nat} {text rest : List Char} {pieces : List Lexeme}
    (h : Cuts .css 0 text pieces after rest) :
    ∃ (core : List Lexeme) (blanks : List Char), pieces = core ++ blanks.map .blank ∧
      (∀ c ∈ blanks, isBlank c) ∧ headingOf pieces = written Lexeme.text core := by
  obtain ⟨core, gap, rfl, hgap, hheading⟩ := exists_kept h
  obtain ⟨middle, between, hcore, hback⟩ := h.exists_of_append
  obtain ⟨blanks, rfl, hblanks⟩ := exists_blanks_of_cuts hback hgap
  exact ⟨core, blanks, rfl, hblanks, hheading.trans (maskedText_of_cuts hcore)⟩

/-- A heading, read by itself, has the lexemes that it was made of, apart from the blanks at its end. -/
theorem lexemes_headingOf {after : Nat} {text rest : List Char} {pieces : List Lexeme}
    (h : Cuts .css 0 text pieces after rest) :
    ∃ (core : List Lexeme) (blanks : List Char), pieces = core ++ blanks.map .blank ∧
      (∀ c ∈ blanks, isBlank c) ∧ headingOf pieces = written Lexeme.text core ∧
      lexemes .css (headingOf pieces) = ⟨core, none⟩ := by
  obtain ⟨core, blanks, rfl, hblanks, hheading⟩ := exists_core h
  obtain ⟨middle, between, hcore, -⟩ := h.exists_of_append
  refine ⟨core, blanks, rfl, hblanks, hheading, ?_⟩
  rw [hheading, hcore.alone.lexemes_eq]

end SelectorLint.Stylesheet
