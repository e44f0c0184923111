import SelectorLint.Proofs.Stylesheet.Cutting
import SelectorLint.Proofs.Text.Run
import SelectorLint.Proofs.Text.Trimming
import SelectorLint.Stylesheet.Scan

/-!
# Where the headings of style rules stand

A style rule comes from some lexemes of the stylesheet that stand one after the other before an opening
brace (`Heads`). The scan keeps this up from lexeme to lexeme (`Tracks.take`), and so it holds of the
rules of every stylesheet that parses (`rules_of_parse`), together with the order of the rules: each
selector ends before the next one starts.

The lexemes inside a statement are just added to it (`runs_lengthened`).
-/

namespace SelectorLint.Stylesheet

open Text

/-! ## Lexemes of a statement -/

/-- The lexeme neither begins nor ends a block, and ends no statement. -/
def Lexeme.isInner : Lexeme → Bool
  | openBrace | closeBrace | semicolon => false
  | _ => true

theorem isInner_of_not_isSignificant {lexeme : Lexeme} (h : ¬lexeme.isSignificant) :
    lexeme.isInner := by
  cases lexeme with
  | openBrace | closeBrace | semicolon => exact absurd rfl h
  | _ => rfl

/-- Lexemes of a statement go up to the first one that is none. -/
theorem eq_of_append_cons {first second rest rest' : List Lexeme} {lexeme lexeme' : Lexeme}
    (hfirst : ∀ lexeme ∈ first, lexeme.isInner) (hsecond : ∀ lexeme ∈ second, lexeme.isInner)
    (hlexeme : ¬lexeme.isInner) (hlexeme' : ¬lexeme'.isInner)
    (h : first ++ lexeme :: rest = second ++ lexeme' :: rest') : first = second := by
  have htake := congrArg (List.takeWhile Lexeme.isInner) h
  rw [List.takeWhile_append_of_pos hfirst, List.takeWhile_append_of_pos hsecond,
    List.takeWhile_cons_of_neg hlexeme, List.takeWhile_cons_of_neg hlexeme'] at htake
  simpa using htake

/-- The scan with lexemes added to its statement, if one has begun. -/
def Scan.lengthened (scan : Scan) (pieces : List Lexeme) : Scan :=
  { scan with
    statement := scan.statement.map fun statement =>
      { statement with piece := pieces.reverse ++ statement.piece } }

namespace Scan

theorem lengthened_nil (scan : Scan) : scan.lengthened [] = scan := by
  obtain ⟨statement, blocks, rules⟩ := scan
  cases statement <;> rfl

theorem lengthened_cons (scan : Scan) (lexeme : Lexeme) (pieces : List Lexeme) :
    scan.lengthened (lexeme :: pieces) = (scan.lengthened [lexeme]).lengthened pieces := by
  obtain ⟨statement, blocks, rules⟩ := scan
  cases statement with
  | none => rfl
  | some statement => simp [lengthened]

theorem isSome_statement_lengthened (scan : Scan) (pieces : List Lexeme) :
    (scan.lengthened pieces).statement.isSome = scan.statement.isSome := by
  simp [lengthened]

theorem blocks_extend (scan : Scan) (lexeme : Placed Lexeme) : (scan.extend lexeme).blocks = scan.blocks := by
  unfold extend
  repeat' split
  all_goals rfl

theorem rules_extend (scan : Scan) (lexeme : Placed Lexeme) : (scan.extend lexeme).rules = scan.rules := by
  unfold extend
  repeat' split
  all_goals rfl

theorem take_of_isInner {lexeme : Lexeme} (h : lexeme.isInner) (scan : Scan) (offset : Nat) :
    scan.take ⟨offset, lexeme⟩ = .ok (scan.extend ⟨offset, lexeme⟩) := by
  cases lexeme with
  | openBrace | closeBrace | semicolon => cases h
  | _ => rfl

theorem extend_eq_lengthened {scan : Scan} {lexeme : Lexeme}
    (h : scan.statement.isSome ∨ ¬lexeme.isSignificant) (offset : Nat) :
    scan.extend ⟨offset, lexeme⟩ = scan.lengthened [lexeme] := by
  obtain ⟨statement, blocks, rules⟩ := scan
  cases statement with
  | none =>
    rcases h with hsome | hnot
    · cases hsome
    · simp only [extend, if_neg hnot]
      rfl
  | some statement => rfl

/-- The lexemes inside a statement are added to it, and before it they are passed over. -/
theorem runs_lengthened {pieces : List Lexeme} (hinner : ∀ lexeme ∈ pieces, lexeme.isInner)
    {scan : Scan} (h : scan.statement.isSome ∨ ∀ lexeme ∈ pieces, ¬lexeme.isSignificant)
    (offset : Nat) : Runs Lexeme.text Scan.take scan offset pieces (scan.lengthened pieces) := by
  induction pieces generalizing scan offset with
  | nil =>
    rw [lengthened_nil]
    exact .nil _ _
  | cons lexeme pieces ih =>
    obtain ⟨hlexeme, hpieces⟩ := List.forall_mem_cons.1 hinner
    have hfirst : scan.statement.isSome ∨ ¬lexeme.isSignificant :=
      h.imp_right fun hall => hall lexeme List.mem_cons_self
    have hothers : (scan.lengthened [lexeme]).statement.isSome ∨
        ∀ lexeme ∈ pieces, ¬lexeme.isSignificant := by
      rw [isSome_statement_lengthened]
      exact h.imp_right fun hall other hother => hall other (List.mem_cons_of_mem _ hother)
    have hstep : scan.take ⟨offset, lexeme⟩ = .ok (scan.lengthened [lexeme]) := by
      rw [take_of_isInner hlexeme, extend_eq_lengthened hfirst]
    rw [lengthened_cons]
    exact .cons hstep (ih hpieces hothers _)

end Scan

/-! ## Headings -/

/-- The lexemes are those of a statement. -/
structure IsStatement (pieces : List Lexeme) : Prop where
  starts : ∃ first rest, pieces = first :: rest ∧ first.isSignificant
  inner : ∀ lexeme ∈ pieces, lexeme.isInner

theorem isStatement_append {statement more : List Lexeme} (h : IsStatement statement)
    (hmore : ∀ lexeme ∈ more, lexeme.isInner) : IsStatement (statement ++ more) := by
  obtain ⟨⟨first, rest, rfl, hfirst⟩, hinner⟩ := h
  exact ⟨⟨first, rest ++ more, rfl, hfirst⟩, List.forall_mem_append.2 ⟨hinner, hmore⟩⟩

/-- The lexemes of a statement are collected from its start. -/
theorem Scan.runs_statement {statement : List Lexeme} (h : IsStatement statement)
    (blocks : List (Placed Block)) (rules : List StyleRule) (offset : Nat) :
    Runs Lexeme.text Scan.take ⟨none, blocks, rules⟩ offset statement
      ⟨some ⟨offset, statement.reverse⟩, blocks, rules⟩ := by
  obtain ⟨⟨first, others, rfl, hfirst⟩, hinner⟩ := h
  obtain ⟨hinnerFirst, hinnerOthers⟩ := List.forall_mem_cons.1 hinner
  have hstart : Scan.take ⟨none, blocks, rules⟩ ⟨offset, first⟩ =
      .ok ⟨some ⟨offset, [first]⟩, blocks, rules⟩ := by
    rw [take_of_isInner hinnerFirst]
    simp only [extend, hfirst, if_true]
  rw [List.reverse_cons]
  exact .cons hstart (runs_lengthened hinnerOthers (.inl rfl) _)

/-- The text of a heading that is made up of these lexemes. -/
def headingOf (pieces : List Lexeme) : List Char := trimEnd (maskedText pieces)

/-- The offset after the selector of a rule. -/
def StyleRule.stop (rule : StyleRule) : Nat := rule.offset + byteLength rule.selector.toList

/-- The lexemes that have been read have the heading of the rule in them, before a brace. -/
def Heads (past : List Lexeme) (rule : StyleRule) : Prop :=
  ∃ before statement after, past = before ++ statement ++ .openBrace :: after ∧
    IsStatement statement ∧ rule.offset = byteLength (written Lexeme.text before) ∧
    rule.selector = String.ofList (headingOf statement)

theorem Scan.heading_reverse (statement : List Lexeme) :
    Scan.heading statement.reverse = headingOf statement := by
  rw [heading, List.reverse_reverse, headingOf, maskedText]

theorem byteLength_headingOf_le (pieces : List Lexeme) :
    byteLength (headingOf pieces) ≤ byteLength (written Lexeme.text pieces) := by
  obtain ⟨blanks, -, htext⟩ := exists_trimEnd_eq (maskedText pieces)
  have hlength := congrArg byteLength htext
  rw [byteLength_append, byteLength_maskedText] at hlength
  rw [headingOf]
  omega

/-- What the scan knows after the lexemes `past`. -/
structure Tracks (scan : Scan) (past : List Lexeme) : Prop where
  begun : ∀ statement, scan.statement = some statement →
    ∃ before pieces, past = before ++ pieces ∧ IsStatement pieces ∧
      statement = ⟨byteLength (written Lexeme.text before), pieces.reverse⟩
  headed : ∀ rule ∈ scan.rules, Heads past rule
  stopped : ∀ rule ∈ scan.rules, rule.stop < byteLength (written Lexeme.text past)
  /-- A statement that has begun starts after all rules. -/
  later : ∀ statement, scan.statement = some statement → ∀ rule ∈ scan.rules, rule.stop < statement.offset
  ordered : scan.rules.Pairwise fun first second => first.stop < second.offset

theorem Heads.append {past : List Lexeme} {rule : StyleRule} (h : Heads past rule)
    (more : List Lexeme) : Heads (past ++ more) rule := by
  obtain ⟨before, statement, after, rfl, hrest⟩ := h
  exact ⟨before, statement, after ++ more, by simp, hrest⟩

namespace Tracks

variable {scan after : Scan} {past : List Lexeme} {offset : Nat}

theorem new : Tracks .new [] where
  begun _ heq := by cases heq
  headed _ hmem := by cases hmem
  stopped _ hmem := by cases hmem
  later _ heq := by cases heq
  ordered := .nil

theorem stopped_append (h : Tracks scan past) (lexeme : Lexeme) {rule : StyleRule}
    (hrule : rule ∈ scan.rules) : rule.stop < byteLength (written Lexeme.text (past ++ [lexeme])) := by
  have hstop := h.stopped rule hrule
  rw [written_append, byteLength_append]
  omega

/-- A lexeme after which no statement has begun. -/
theorem of_none (h : Tracks scan past) (lexeme : Lexeme) (blocks : List (Placed Block)) :
    Tracks ⟨none, blocks, scan.rules⟩ (past ++ [lexeme]) where
  begun _ heq := by cases heq
  headed rule hrule := (h.headed rule hrule).append [lexeme]
  stopped _ hrule := h.stopped_append lexeme hrule
  later _ heq := by cases heq
  ordered := h.ordered

theorem extend (h : Tracks scan past) {lexeme : Lexeme} (hinner : lexeme.isInner)
    (hoffset : offset = byteLength (written Lexeme.text past)) :
    Tracks (scan.extend ⟨offset, lexeme⟩) (past ++ [lexeme]) := by
  obtain ⟨statement, blocks, rules⟩ := scan
  cases statement with
  | some statement =>
    obtain ⟨before, pieces, rfl, hpieces, rfl⟩ := h.begun statement rfl
    have hlater := h.later _ rfl
    refine ⟨?_, fun rule hrule => (h.headed rule hrule).append [lexeme],
      fun rule hrule => h.stopped_append lexeme hrule, ?_, h.ordered⟩
    · intro statement heq
      cases heq
      obtain ⟨first, rest, rfl, hfirst⟩ := hpieces.starts
      refine ⟨before, first :: rest ++ [lexeme], by simp, ⟨⟨first, rest ++ [lexeme], rfl, hfirst⟩, ?_⟩,
        by simp⟩
      exact List.forall_mem_append.2 ⟨hpieces.inner, by simpa using hinner⟩
    · intro statement heq
      cases heq
      exact hlater
  | none =>
    by_cases hsignificant : lexeme.isSignificant
    · have hextend : Scan.extend ⟨none, blocks, rules⟩ ⟨offset, lexeme⟩ =
          ⟨some ⟨offset, [lexeme]⟩, blocks, rules⟩ := by
        simp only [Scan.extend, hsignificant, if_true]
      rw [hextend]
      refine ⟨?_, fun rule hrule => (h.headed rule hrule).append [lexeme],
        fun rule hrule => h.stopped_append lexeme hrule, ?_, h.ordered⟩
      · intro statement heq
        cases heq
        refine ⟨past, [lexeme], rfl, ⟨⟨lexeme, [], rfl, hsignificant⟩, by simpa using hinner⟩, ?_⟩
        rw [hoffset]
        rfl
      · intro statement heq
        cases heq
        intro rule hrule
        have hstop := h.stopped rule hrule
        show rule.stop < offset
        omega
    · rw [Scan.extend_eq_lengthened (.inr hsignificant)]
      exact h.of_none lexeme blocks

theorem openBlock (h : Tracks scan past) (hopen : scan.openBlock offset = .ok after) :
    Tracks after (past ++ [.openBrace]) := by
  obtain ⟨statement, blocks, rules⟩ := scan
  cases statement with
  | none => cases hopen
  | some statement =>
    obtain ⟨before, pieces, rfl, hpieces, rfl⟩ := h.begun statement rfl
    have hlater := h.later _ rfl
    simp only [Scan.openBlock, Scan.heading_reverse] at hopen
    split at hopen
    next hrule =>
      cases hopen
      -- the selector is no longer than what stands before the brace
      have hlength := byteLength_headingOf_le pieces
      have hstop : ∀ rule : StyleRule, rule.offset = byteLength (written Lexeme.text before) →
          rule.selector = String.ofList (headingOf pieces) →
          rule.stop < byteLength (written Lexeme.text (before ++ pieces ++ [.openBrace])) := by
        intro rule hoffset hselector
        rw [StyleRule.stop, hoffset, hselector, String.toList_ofList, written_append, written_append,
          byteLength_append, byteLength_append]
        have hbrace : byteLength (written Lexeme.text [.openBrace]) = 1 := rfl
        omega
      refine ⟨by simp, ?_, ?_, by simp, ?_⟩
      · refine List.forall_mem_append.2 ⟨fun rule hmem => (h.headed rule hmem).append _, ?_⟩
        intro rule hmem
        obtain rfl := List.mem_singleton.1 hmem
        exact ⟨before, pieces, [], rfl, hpieces, rfl, rfl⟩
      · refine List.forall_mem_append.2 ⟨fun rule hmem => h.stopped_append _ hmem, ?_⟩
        intro rule hmem
        obtain rfl := List.mem_singleton.1 hmem
        exact hstop _ rfl rfl
      · refine List.pairwise_append.2 ⟨h.ordered, List.pairwise_singleton _ _, ?_⟩
        intro rule hmem other hother
        obtain rfl := List.mem_singleton.1 hother
        exact hlater rule hmem
    next hrule =>
      cases hopen
      exact h.of_none .openBrace _

/-- One lexeme. -/
theorem take (h : Tracks scan past) {lexeme : Lexeme} (hoffset : offset = byteLength (written Lexeme.text past))
    (htake : scan.take ⟨offset, lexeme⟩ = .ok after) : Tracks after (past ++ [lexeme]) := by
  cases lexeme with
  | openBrace => exact h.openBlock htake
  | closeBrace =>
    have hclose : scan.closeBlock offset = .ok after := htake
    unfold Scan.closeBlock at hclose
    split at hclose
    · cases hclose
    · cases hclose
      exact h.of_none .closeBrace _
  | semicolon =>
    cases htake
    exact h.of_none .semicolon _
  | _ =>
    cases htake
    exact h.extend rfl hoffset

/-- All lexemes. -/
theorem runs (h : Tracks scan past) {pieces : List Lexeme}
    (hruns : Runs Lexeme.text Scan.take scan (byteLength (written Lexeme.text past)) pieces after) :
    Tracks after (past ++ pieces) :=
  hruns.invariant (fun past scan => Tracks scan past) (fun _ _ _ _ hpast htake => hpast.take rfl htake) h

end Tracks

/-- The rules of a text that is read to its end. -/
theorem collect_eq_ok_iff {dialect : Dialect} {after : Nat} {text : List Char} {pieces : List Lexeme}
    (h : Cuts dialect 0 text pieces after []) {rules : List StyleRule} :
    collect (lexemes dialect text) = .ok rules ↔
      ∃ last, Runs Lexeme.text Scan.take .new 0 pieces last ∧ last.finish = .ok rules := by
  rw [h.lexemes_eq]
  constructor
  · exact exists_of_bind_eq_ok
  · rintro ⟨last, hruns, hfinish⟩
    rw [collect, hruns]
    exact hfinish

/-- Where the rules of a stylesheet come from. -/
structure RulesOf (dialect : Dialect) (source : List Char) (rules : List StyleRule) : Prop where
  cuts : ∃ after, Cuts dialect 0 source (lexemes dialect source).pieces after []
  headed : ∀ rule ∈ rules, Heads (lexemes dialect source).pieces rule
  stopped : ∀ rule ∈ rules, rule.stop < byteLength source
  ordered : rules.Pairwise fun first second => first.stop < second.offset

theorem rules_of_parse {dialect : Dialect} {source : String} {rules : List StyleRule}
    (h : parse dialect source = .ok rules) : RulesOf dialect source.toList rules := by
  obtain ⟨scan, hruns, hfinish⟩ := exists_of_bind_eq_ok h
  obtain ⟨after, rest, hcuts, hstops⟩ := exists_cuts dialect 0 source.toList
  have htracks := Tracks.new.runs hruns
  rw [List.nil_append] at htracks
  change Stops dialect after rest (lexemes dialect source.toList).trouble at hstops
  rcases hstops with ⟨rfl, htrouble⟩ | ⟨c, more, fault, -, -, htrouble⟩
  · have hwritten : written Lexeme.text (lexemes dialect source.toList).pieces = source.toList := by
      have hall := hcuts.written_append_rest
      rwa [List.append_nil] at hall
    simp only [htrouble] at hfinish
    unfold Scan.finish at hfinish
    split at hfinish
    · cases hfinish
      have hstopped := htracks.stopped
      rw [hwritten] at hstopped
      exact ⟨⟨after, hcuts⟩, htracks.headed, hstopped, htracks.ordered⟩
    · cases hfinish
  · simp only [htrouble] at hfinish
    cases hfinish

end SelectorLint.Stylesheet
