import SelectorLint.Proofs.Stylesheet.Masking
import SelectorLint.Proofs.Stylesheet.Relexing

/-!
# Selectors read again

The selector of a rule, put before an empty block, is the selector of the only rule of the result
(`parse_selector_fixed`). Three things go into this.

* What the first reading leaves of a rule (`Titled`): its selector is the heading of a statement that has no
  brackets open before and after it, and the heading is one of a rule. The scan finds only such rules
  (`titled_of_parse`).
* What the second reading cuts the selector into. Line comments are masked in it, so that the lexemes are those of
  the statement with the lexemes of masks among them (`Cuts.masked`). What was trimmed away had no effect on the
  brackets (`Cuts.eq_of_trails`).
* That the lexemes of masks make the same rules as the line comments (`collect_unlined`).
-/

namespace SelectorLint.Stylesheet

open Text

/-! ## What a rule is made from -/

/-- The selector is the heading of a statement outside of brackets, and the heading is that of a rule. -/
def Titled (dialect : Dialect) (rule : StyleRule) : Prop :=
  ∃ text statement rest, Cuts dialect 0 text statement 0 rest ∧ IsStatement statement ∧
    rule.selector = String.ofList (headingOf statement) ∧ Block.ofHeading (headingOf statement) = .rule

section Scan

variable {dialect : Dialect} {scan after : Scan} {brackets offset : Nat} {c : Char} {more rest : List Char}
  {lexeme : Lexeme}

theorem titled_of_openBlock (hsited : Sited dialect scan 0 rest) (h : scan.openBlock offset = .ok after) :
    ∀ rule ∈ after.rules, rule ∈ scan.rules ∨ Titled dialect rule := by
  intro rule hrule
  unfold Scan.openBlock at h
  split at h
  next => cases h
  next statement heq =>
    cases h
    obtain ⟨text, pieces, hpieces, hstatement, hcuts⟩ := hsited.begun statement heq
    simp only [hpieces, Scan.heading_reverse] at hrule
    split at hrule
    next hheading =>
      rcases List.mem_append.1 hrule with hold | hnew
      · exact .inl hold
      · obtain rfl := List.mem_singleton.1 hnew
        exact .inr ⟨text, pieces, rest, hcuts, hstatement, rfl, hheading⟩
    next => exact .inl hrule

/-- One lexeme adds a rule only if it is an opening brace. -/
theorem titled_of_take (hsited : Sited dialect scan brackets (c :: more))
    (hnext : next dialect brackets c more = .ok (lexeme, rest)) (h : scan.take ⟨offset, lexeme⟩ = .ok after) :
    ∀ rule ∈ after.rules, rule ∈ scan.rules ∨ Titled dialect rule := by
  cases lexeme with
  | openBrace =>
    obtain rfl := brackets_eq_zero_of_next hnext (by decide)
    exact titled_of_openBlock hsited h
  | closeBrace =>
    have hclose : scan.closeBlock offset = .ok after := h
    unfold Scan.closeBlock at hclose
    split at hclose
    · cases hclose
    · cases hclose
      exact fun rule hrule => .inl hrule
  | semicolon =>
    cases h
    exact fun rule hrule => .inl hrule
  | _ =>
    cases h
    intro rule hrule
    rw [Scan.rules_extend] at hrule
    exact .inl hrule

/-- All lexemes. -/
theorem titled_of_runs {text : List Char} {pieces : List Lexeme} {last : Scan} {final : Nat}
    (hcuts : Cuts dialect brackets text pieces final rest) (hsited : Sited dialect scan brackets text)
    (hruns : Runs Lexeme.text Scan.take scan offset pieces last) :
    ∀ rule ∈ last.rules, rule ∈ scan.rules ∨ Titled dialect rule := by
  induction hcuts generalizing scan offset with
  | done =>
    cases hruns
    exact fun rule hrule => .inl hrule
  | step hnext _ ih =>
    obtain ⟨middle, htake, hrest⟩ := hruns.exists_of_cons
    intro rule hrule
    rcases ih (hsited.take hnext htake) hrest rule hrule with hmiddle | htitled
    · exact titled_of_take hsited hnext htake rule hmiddle
    · exact .inr htitled

end Scan

theorem titled_of_parse {dialect : Dialect} {source : String} {rules : List StyleRule}
    (h : parse dialect source = .ok rules) : ∀ rule ∈ rules, Titled dialect rule := by
  obtain ⟨after, hcuts⟩ := (rules_of_parse h).cuts
  obtain ⟨last, hruns, hfinish⟩ := (collect_eq_ok_iff hcuts).1 h
  obtain rfl : last.rules = rules := by
    unfold Scan.finish at hfinish
    split at hfinish
    · exact Except.ok.inj hfinish
    · cases hfinish
  intro rule hrule
  rcases titled_of_runs hcuts (.of_none rfl _) hruns rule hrule with hnew | htitled
  · cases hnew
  · exact htitled

/-! ## The second reading -/

/-- What is trimmed away leaves the brackets as they are. -/
theorem Cuts.eq_of_trails {dialect : Dialect} {brackets after : Nat} {text rest : List Char} {gap : List Lexeme}
    (h : Cuts dialect brackets text gap after rest) (hgap : ∀ lexeme ∈ gap, lexeme.Trails) : brackets = after := by
  induction h with
  | done => rfl
  | step _ _ ih =>
    obtain ⟨hlexeme, hothers⟩ := List.forall_mem_cons.1 hgap
    have hrest := ih hothers
    cases hlexeme with
    | blank | short => exact hrest

/-- A statement begins with a lexeme that is not trimmed away. -/
theorem isStatement_of_trails {kept gap : List Lexeme} (h : IsStatement (kept ++ gap))
    (hgap : ∀ lexeme ∈ gap, lexeme.Trails) : IsStatement kept := by
  obtain ⟨⟨first, others, hpieces, hfirst⟩, hinner⟩ := h
  refine ⟨?_, (List.forall_mem_append.1 hinner).1⟩
  cases kept with
  | cons lexeme kept =>
    obtain ⟨rfl, -⟩ := List.cons.inj hpieces
    exact ⟨lexeme, kept, rfl, hfirst⟩
  | nil =>
    have htrails : first.Trails := hgap first (by rw [← List.nil_append gap, hpieces]; exact List.mem_cons_self)
    cases htrails with
    | blank | short => cases hfirst

/-- Lexemes that make a statement, before an empty block, make one rule if their heading is that of a rule. -/
theorem collect_block {statement : List Lexeme} (h : IsStatement statement)
    (hheading : Block.ofHeading (headingOf statement) = .rule) :
    collect ⟨statement ++ [.openBrace, .closeBrace], none⟩ =
      .ok [⟨String.ofList (headingOf statement), 0, .root, 0⟩] := by
  have hruns := runs_block h 0
  rw [if_pos hheading] at hruns
  rw [collect, hruns]
  rfl

/-- What a heading that is read before an empty block is cut into. -/
theorem lexemes_maskedText_block {dialect : Dialect} {text rest : List Char} {kept : List Lexeme}
    (h : Cuts dialect 0 text kept 0 rest) :
    lexemes dialect (maskedText kept ++ [' ', '{', '}']) =
      ⟨(kept ++ [Lexeme.blank ' ', .openBrace, .closeBrace]).flatMap Lexeme.unlined, none⟩ := by
  have halike : StartsAlike rest [' ', '{', '}'] := .inr rfl
  have hblock : Cuts dialect 0 [' ', '{', '}'] [.blank ' ', .openBrace, .closeBrace] 0 [] :=
    .step rfl (.step rfl (.step rfl .done))
  rw [((h.masked id halike).1.append hblock).lexemes_eq, List.flatMap_append]
  rfl

/-- The selector of a rule, before an empty block, is the selector of the only rule. -/
theorem parse_selector_fixed {dialect : Dialect} {source : String} {rules : List StyleRule}
    (h : parse dialect source = .ok rules) :
    ∀ rule ∈ rules, parse dialect (rule.selector ++ " \x7b\x7d") = .ok [⟨rule.selector, 0, .root, 0⟩] := by
  intro rule hrule
  obtain ⟨text, statement, rest, hcuts, hstatement, hselector, hheading⟩ := titled_of_parse h rule hrule
  obtain ⟨kept, gap, rfl, hgap, hkept⟩ := exists_kept hcuts
  obtain ⟨middle, between, hfront, hback⟩ := hcuts.exists_of_append
  obtain rfl := hback.eq_of_trails hgap
  have hblank : IsStatement (kept ++ [.blank ' ']) :=
    isStatement_append (isStatement_of_trails hstatement hgap) (by simp [Lexeme.isInner])
  have hagain : headingOf (kept ++ [.blank ' ']) = maskedText kept := by
    have htrimmed : trimEnd (maskedText kept) = maskedText kept := by
      rw [← hkept, headingOf, trimEnd_trimEnd]
    rw [headingOf, maskedText_append]
    exact (trimEnd_append_blank _ (by decide)).trans htrimmed
  have hsource : (rule.selector ++ " \x7b\x7d").toList = maskedText kept ++ [' ', '{', '}'] := by
    rw [String.toList_append, hselector, hkept, String.toList_ofList]
    rfl
  have hcollect := collect_block hblank (by rw [hagain, ← hkept, hheading])
  rw [List.append_assoc, hagain, ← hkept, ← hselector] at hcollect
  rw [parse, hsource, lexemes_maskedText_block hfront, collect_unlined]
  exact hcollect

/-- The first of two line comments is in the selector as a mask, with a bracket that was in it gone. -/
theorem parse_selector_fixed_masked :
    parse .scss "@media x\x7ba//(xy\n[b=\"\x7b\"]//z\n\x7bc:d\x7d\x7d" =
        .ok [⟨"a/* */\n[b=\"\x7b\"]", 9, .atRule "media", 0⟩] ∧
      parse .scss ("a/* */\n[b=\"\x7b\"]" ++ " \x7b\x7d") = .ok [⟨"a/* */\n[b=\"\x7b\"]", 0, .root, 0⟩] := by
  have hparse : parse .scss "@media x\x7ba//(xy\n[b=\"\x7b\"]//z\n\x7bc:d\x7d\x7d" =
      .ok [⟨"a/* */\n[b=\"\x7b\"]", 9, .atRule "media", 0⟩] := by decide +kernel
  exact ⟨hparse, parse_selector_fixed hparse ⟨"a/* */\n[b=\"\x7b\"]", 9, .atRule "media", 0⟩ List.mem_cons_self⟩

end SelectorLint.Stylesheet
