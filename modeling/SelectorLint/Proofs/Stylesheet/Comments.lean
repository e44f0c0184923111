import Mathlib.Data.List.Forall2
import SelectorLint.Proofs.Stylesheet.Masking
import SelectorLint.Proofs.Stylesheet.Relexing

/-!
# Stylesheets without their comments

`blankComments` puts spaces in the place of the comments of a stylesheet. A stylesheet that parses still
does so then, and its rules are those before, with one exception (`parse_blankComments`): comments are a part
of a heading, so that a heading with a comment after its last colon is that of a rule, and without the
comment it is that of a property.

As with line comments, two runs are followed in lock step, first of the lexer (`Cuts.uncommented`) and then of
the scan. The states of the second pair differ in the lexemes of the statement, and in blocks that are rules
on one side and properties on the other (`Shadows`).
-/

namespace SelectorLint.Stylesheet

open Text

/-- The text of a lexeme, or as many spaces in the place of a comment. -/
def Lexeme.blanked : Lexeme → List Char
  | comment tail => List.replicate (byteLength (comment tail).text) ' '
  | lexeme => lexeme.text

/-- The text of lexemes with spaces in the place of comments. -/
def blankedText (pieces : List Lexeme) : List Char := pieces.flatMap Lexeme.blanked

/-- A stylesheet with spaces in the place of its comments. -/
def blankComments (source : List Char) : List Char :=
  let pieces := (lexemes .css source).pieces
  blankedText pieces ++ source.drop (written Lexeme.text pieces).length

/-- Without its comments, the selector does not look like the heading of a property. -/
def staysRule (selector : String) : Bool :=
  (trimEnd (blankComments selector.toList)).getLast? ≠ some ':'

/-- The second rule is what the first is without the comments of the stylesheet. -/
structure StyleRule.Outlines (rule other : StyleRule) : Prop where
  selector : other.selector = String.ofList (trimEnd (blankComments rule.selector.toList))
  offset : other.offset = rule.offset
  parent : other.parent = rule.parent
  depth : other.depth ≤ rule.depth

/-- Where a rule stands. -/
def StyleRule.site (rule : StyleRule) : Nat × Parent × Nat := (rule.offset, rule.parent, rule.depth)

/-! ## The lexer in lock step -/

/-- The lexemes that a lexeme is read as once it is blanked. -/
def Lexeme.uncommented : Lexeme → List Lexeme
  | comment tail => List.replicate (byteLength (comment tail).text) (.blank ' ')
  | lexeme => [lexeme]

@[simp] theorem blankedText_nil : blankedText [] = [] := rfl

@[simp] theorem blankedText_cons (lexeme : Lexeme) (rest : List Lexeme) :
    blankedText (lexeme :: rest) = lexeme.blanked ++ blankedText rest := rfl

@[simp] theorem blankedText_append (front back : List Lexeme) :
    blankedText (front ++ back) = blankedText front ++ blankedText back := List.flatMap_append

theorem blanked_of_ne {lexeme : Lexeme} (h : ∀ tail, lexeme ≠ .comment tail) :
    lexeme.blanked = lexeme.text := by
  cases lexeme with
  | comment tail => exact absurd rfl (h tail)
  | _ => rfl

theorem uncommented_of_ne {lexeme : Lexeme} (h : ∀ tail, lexeme ≠ .comment tail) :
    lexeme.uncommented = [lexeme] := by
  cases lexeme with
  | comment tail => exact absurd rfl (h tail)
  | _ => rfl

theorem byteLength_blanked (lexeme : Lexeme) : byteLength lexeme.blanked = byteLength lexeme.text := by
  cases lexeme with
  | comment tail => exact byteLength_replicate_space _
  | _ => rfl

theorem byteLength_blankedText (pieces : List Lexeme) :
    byteLength (blankedText pieces) = byteLength (written Lexeme.text pieces) := by
  induction pieces with
  | nil => rfl
  | cons lexeme rest ih =>
    rw [blankedText_cons, written_cons, byteLength_append, byteLength_append, byteLength_blanked, ih]

theorem written_uncommented (lexeme : Lexeme) : written Lexeme.text lexeme.uncommented = lexeme.blanked := by
  cases lexeme with
  | comment tail => exact written_spaces _
  | _ => exact List.append_nil _

theorem written_flatMap_uncommented (pieces : List Lexeme) :
    written Lexeme.text (pieces.flatMap Lexeme.uncommented) = blankedText pieces := by
  induction pieces with
  | nil => rfl
  | cons lexeme rest ih =>
    rw [List.flatMap_cons, written_append, written_uncommented, ih, blankedText_cons]

theorem exists_blanked_comment (tail : List Char) : ∃ rest, (Lexeme.comment tail).blanked = ' ' :: rest := by
  rw [Lexeme.blanked, Lexeme.text, byteLength_cons, show ('/' : Char).utf8Size = 1 from rfl, Nat.add_comm,
    List.replicate_succ]
  exact ⟨_, rfl⟩

theorem startsAlike_blanked (text tail rest : List Char) :
    StartsAlike text ((Lexeme.comment tail).blanked ++ rest) := by
  obtain ⟨more, hmore⟩ := exists_blanked_comment tail
  rw [hmore]
  exact .inr rfl

/-- The text without its comments is cut in the same places. -/
theorem Cuts.uncommented {brackets after : Nat} {text rest : List Char} {pieces : List Lexeme}
    (h : Cuts .css brackets text pieces after rest) :
    Cuts .css brackets (blankedText pieces ++ rest) (pieces.flatMap Lexeme.uncommented) after rest ∧
      StartsAlike text (blankedText pieces ++ rest) := by
  induction h with
  | done => exact ⟨.done, .inl rfl⟩
  | @step brackets c more lexeme middle pieces after rest hfirst _ ih =>
    obtain ⟨hcuts, halike⟩ := ih
    rw [blankedText_cons, List.append_assoc, List.flatMap_cons]
    by_cases hcomment : ∃ tail, lexeme = .comment tail
    · obtain ⟨tail, rfl⟩ := hcomment
      exact ⟨(cuts_spaces _ brackets _).append hcuts, startsAlike_blanked _ tail _⟩
    · have hne : ∀ tail, lexeme ≠ .comment tail := fun tail heq => hcomment ⟨tail, heq⟩
      have hends :=
        endsBefore_of_startsAlike id (ne_lineComment_of_next hfirst) (endsBefore_of_next hfirst) halike
      obtain ⟨more', htext, hnext⟩ := next_append hfirst hends
      rw [uncommented_of_ne hne, blanked_of_ne hne, htext]
      exact ⟨.step hnext hcuts, .inl rfl⟩

/-! ## Headings without comments -/

theorem takeWhile_trimEnd (text : List Char) :
    (trimEnd text).takeWhile isNameCharacter = text.takeWhile isNameCharacter := by
  obtain ⟨blanks, hblanks, htext⟩ := exists_trimEnd_eq text
  have hnone : blanks.takeWhile isNameCharacter = [] := by
    cases blanks with
    | nil => rfl
    | cons c blanks =>
      refine List.takeWhile_cons_of_neg fun hname => ?_
      exact not_isBlank_of_isNameCharacter hname (hblanks c List.mem_cons_self)
  conv_rhs => rw [htext, List.takeWhile_append, hnone, List.append_nil]
  split
  next hall => exact (List.takeWhile_prefix _).eq_of_length hall
  · rfl

/-- Neither a comment nor a space goes on with a name. -/
theorem takeWhile_blankedText (pieces : List Lexeme) :
    (blankedText pieces).takeWhile isNameCharacter = (written Lexeme.text pieces).takeWhile isNameCharacter := by
  induction pieces with
  | nil => rfl
  | cons lexeme pieces ih =>
    by_cases hcomment : ∃ tail, lexeme = .comment tail
    · obtain ⟨tail, rfl⟩ := hcomment
      obtain ⟨more, hmore⟩ := exists_blanked_comment tail
      have hspace : ¬isNameCharacter ' ' := fun hname => not_isBlank_of_isNameCharacter hname (by decide)
      have hslash : ¬isNameCharacter '/' := fun hname => not_mem_marks_of_isNameCharacter hname (by decide)
      rw [blankedText_cons, hmore, List.cons_append, List.takeWhile_cons_of_neg hspace, written_cons,
        Lexeme.text, List.cons_append, List.takeWhile_cons_of_neg hslash]
    · have hne : ∀ tail, lexeme ≠ .comment tail := fun tail heq => hcomment ⟨tail, heq⟩
      rw [blankedText_cons, written_cons, blanked_of_ne hne, List.takeWhile_append, List.takeWhile_append, ih]

theorem ofHeading_at (rest : List Char) :
    Block.ofHeading (trimEnd ('@' :: rest)) = .atRule (String.ofList (rest.takeWhile isNameCharacter)) := by
  rw [trimEnd_cons (by decide), Block.ofHeading, takeWhile_trimEnd]

theorem ofHeading_of_ne {c : Char} (hc : c ≠ '@') (rest : List Char) :
    Block.ofHeading (trimEnd (c :: rest)) =
      if (trimEnd (c :: rest)).getLast? = some ':' then .property else .rule := by
  obtain ⟨blanks, -, htext⟩ := exists_trimEnd_eq (c :: rest)
  generalize trimEnd (c :: rest) = heading at htext ⊢
  unfold Block.ofHeading
  split
  next heq =>
    rw [List.cons_append] at htext
    exact absurd (List.cons.inj htext).1 hc
  · rfl

section Heading

variable {after : Nat} {text rest : List Char} {pieces : List Lexeme}

/-- A colon at the end of a heading is not in a comment. -/
theorem getLast?_blankedText (h : Cuts .css 0 text pieces after rest)
    (hcolon : (trimEnd (written Lexeme.text pieces)).getLast? = some ':') :
    (trimEnd (blankedText pieces)).getLast? = some ':' := by
  -- from the end: blanks are passed over, and the first lexeme that is none decides
  induction pieces using List.reverseRecOn generalizing after rest with
  | nil => exact hcolon
  | append_singleton pieces lexeme ih =>
    obtain ⟨middle, between, hfront, hlast⟩ := h.exists_of_append
    rw [written_append, written_cons, written_nil, List.append_nil] at hcolon
    rw [blankedText_append, blankedText_cons, blankedText_nil, List.append_nil]
    cases hlast with
    | step hnext =>
      rcases isBlank_or_ends_of_next hnext with ⟨c, rfl, hc⟩ | ⟨front, last, htext, hlast, hslash⟩
      · rw [Lexeme.text, trimEnd_append_blank _ hc] at hcolon
        rw [blanked_of_ne (by simp), Lexeme.text, trimEnd_append_blank _ hc]
        exact ih hfront hcolon
      · rw [htext, ← List.append_assoc, trimEnd_concat_eq_iff.2 hlast, List.getLast?_concat] at hcolon
        have hne : ∀ tail, lexeme ≠ .comment tail := by
          rintro tail rfl
          rw [hslash tail rfl] at hcolon
          cases hcolon
        rw [blanked_of_ne hne, htext, ← List.append_assoc, trimEnd_concat_eq_iff.2 hlast,
          List.getLast?_concat, hcolon]

theorem trimEnd_blankComments_headingOf (h : Cuts .css 0 text pieces after rest) :
    trimEnd (blankComments (headingOf pieces)) = trimEnd (blankedText pieces) := by
  obtain ⟨core, blanks, rfl, hblanks, hheading, hlexemes⟩ := lexemes_headingOf h
  have hspaces : blankedText (blanks.map .blank) = blanks := by
    rw [blankedText, List.flatMap_map]
    simp [Lexeme.blanked, Lexeme.text]
  rw [blankComments, hlexemes, hheading, List.drop_length, List.append_nil, blankedText_append, hspaces,
    trimEnd_append_blanks _ hblanks]

theorem headingOf_uncommented (h : Cuts .css 0 text pieces after rest) :
    headingOf (pieces.flatMap Lexeme.uncommented) = trimEnd (blankedText pieces) := by
  rw [headingOf, maskedText_of_cuts h.uncommented.1, written_flatMap_uncommented]

/-- Without its comments, the heading is of the same sort, or that of a rule becomes that of a property. -/
theorem ofHeading_cases (h : Cuts .css 0 text pieces after rest) (hstatement : IsStatement pieces) :
    Block.ofHeading (headingOf pieces) ≠ .rule ∧
        Block.ofHeading (trimEnd (blankedText pieces)) = Block.ofHeading (headingOf pieces) ∨
      Block.ofHeading (headingOf pieces) = .rule ∧ staysRule (String.ofList (headingOf pieces)) ∧
        Block.ofHeading (trimEnd (blankedText pieces)) = .rule ∨
      Block.ofHeading (headingOf pieces) = .rule ∧ ¬staysRule (String.ofList (headingOf pieces)) ∧
        Block.ofHeading (trimEnd (blankedText pieces)) = .property := by
  have hstays : staysRule (String.ofList (headingOf pieces)) ↔
      (trimEnd (blankedText pieces)).getLast? ≠ some ':' := by
    rw [staysRule, String.toList_ofList, trimEnd_blankComments_headingOf h, decide_eq_true_iff]
  have hcolon := getLast?_blankedText h
  rw [hstays, headingOf, maskedText_of_cuts h]
  obtain ⟨⟨first, others, rfl, hfirst⟩, -⟩ := hstatement
  have hne : ∀ tail, first ≠ .comment tail := by
    rintro tail rfl
    cases hfirst
  obtain ⟨c, tail, htext⟩ := List.exists_cons_of_ne_nil (text_ne_nil first)
  have hwritten : written Lexeme.text (first :: others) = c :: (tail ++ written Lexeme.text others) := by
    rw [written_cons, htext, List.cons_append]
  have hblanked : blankedText (first :: others) = c :: (tail ++ blankedText others) := by
    rw [blankedText_cons, blanked_of_ne hne, htext, List.cons_append]
  rw [hwritten, hblanked] at hcolon ⊢
  by_cases hat : c = '@'
  · subst hat
    refine .inl ⟨by simp [ofHeading_at], ?_⟩
    rw [ofHeading_at, ofHeading_at, List.takeWhile_append, takeWhile_blankedText, ← List.takeWhile_append]
  · rw [ofHeading_of_ne hat, ofHeading_of_ne hat]
    by_cases hlast : (trimEnd (c :: (tail ++ written Lexeme.text others))).getLast? = some ':'
    · rw [if_pos hlast, if_pos (hcolon hlast)]
      exact .inl ⟨by simp, rfl⟩
    rw [if_neg hlast]
    by_cases hgone : (trimEnd (c :: (tail ++ blankedText others))).getLast? = some ':'
    · rw [if_pos hgone]
      exact .inr (.inr ⟨rfl, not_not.2 hgone, rfl⟩)
    · rw [if_neg hgone]
      exact .inr (.inl ⟨rfl, hgone, rfl⟩)

end Heading

/-! ## The scan in lock step -/

/-- The block without comments: the same one, or a property in the place of a rule. -/
def BlockAlike (block other : Placed Block) : Prop :=
  other.offset = block.offset ∧
    (other.piece = block.piece ∨ block.piece = .rule ∧ other.piece = .property)

/-- The second scan is what the first is without comments. As long as all rules stay rules, they have the same
blocks open and the same rules behind. -/
structure Shadows (scan other : Scan) : Prop where
  statement : other.statement = scan.statement.map fun statement =>
    ⟨statement.offset, (statement.piece.reverse.flatMap Lexeme.uncommented).reverse⟩
  blocks : List.Forall₂ BlockAlike scan.blocks other.blocks
  rules : List.Forall₂ StyleRule.Outlines (scan.rules.filter fun rule => staysRule rule.selector) other.rules
  stays : (∀ rule ∈ scan.rules, staysRule rule.selector) →
    other.blocks = scan.blocks ∧ other.rules.map StyleRule.site = scan.rules.map StyleRule.site

theorem countP_rule_le {blocks others : List (Placed Block)} (h : List.Forall₂ BlockAlike blocks others) :
    others.countP (fun block => block.piece = .rule) ≤ blocks.countP fun block => block.piece = .rule := by
  induction h with
  | nil => exact Nat.le_refl 0
  | cons hblock _ ih =>
    rw [List.countP_cons, List.countP_cons]
    rcases hblock.2 with hsame | ⟨hrule, hproperty⟩
    · rw [hsame]
      omega
    · rw [hrule, hproperty, if_neg (by simp)]
      omega

namespace Shadows

variable {scan other : Scan} {offset : Nat} {lexeme : Lexeme}

theorem new : Shadows .new .new where
  statement := rfl
  blocks := .nil
  rules := .nil
  stays _ := ⟨rfl, rfl⟩

theorem parent_eq (h : Shadows scan other) : other.parent = scan.parent := by
  obtain ⟨statement, blocks, rules⟩ := scan
  obtain ⟨statement', blocks', rules'⟩ := other
  have hblocks : List.Forall₂ BlockAlike blocks blocks' := h.blocks
  cases hblocks with
  | nil => rfl
  | cons hblock _ =>
    simp only [Scan.parent]
    rcases hblock.2 with hsame | ⟨hrule, hproperty⟩
    · rw [hsame]
    · rw [hrule, hproperty]
      rfl

theorem depth_le (h : Shadows scan other) : other.depth ≤ scan.depth :=
  countP_rule_le h.blocks

/-- A comment, and the spaces in its place. -/
theorem comment (h : Shadows scan other) (tail : List Char) :
    Shadows (scan.lengthened [.comment tail]) (other.lengthened (Lexeme.comment tail).uncommented) := by
  refine ⟨?_, h.blocks, h.rules, h.stays⟩
  simp only [Scan.lengthened, h.statement]
  cases scan.statement with
  | none => rfl
  | some statement => simp

/-- A lexeme that is no comment and ends no statement. -/
theorem extend (h : Shadows scan other) (hne : ∀ tail, lexeme ≠ .comment tail) (offset : Nat) :
    Shadows (scan.extend ⟨offset, lexeme⟩) (other.extend ⟨offset, lexeme⟩) := by
  have hlexeme := uncommented_of_ne hne
  obtain ⟨statement, blocks, rules⟩ := scan
  obtain ⟨statement', blocks', rules'⟩ := other
  have hstatement := h.statement
  cases statement with
  | some statement =>
    cases hstatement
    refine ⟨?_, h.blocks, h.rules, h.stays⟩
    simp [Scan.extend, hlexeme]
  | none =>
    cases hstatement
    by_cases hsignificant : lexeme.isSignificant
    · simp only [Scan.extend, hsignificant, if_true]
      refine ⟨?_, h.blocks, h.rules, h.stays⟩
      simp [hlexeme]
    · simp only [Scan.extend, hsignificant]
      exact h

theorem close (h : Shadows scan other) {after : Scan} (hclose : scan.closeBlock offset = .ok after) :
    ∃ after', other.closeBlock offset = .ok after' ∧ Shadows after after' := by
  obtain ⟨statement, blocks, rules⟩ := scan
  obtain ⟨statement', blocks', rules'⟩ := other
  have hblocks : List.Forall₂ BlockAlike blocks blocks' := h.blocks
  cases hblocks with
  | nil => cases hclose
  | cons _ hrest =>
    cases hclose
    refine ⟨_, rfl, rfl, hrest, h.rules, fun hall => ?_⟩
    obtain ⟨hsame, hsites⟩ := h.stays hall
    exact ⟨(List.cons.inj hsame).2, hsites⟩

/-- The same block is opened on both sides, and it is not that of a rule. -/
theorem openOther (h : Shadows scan other) (offset : Nat) (block : Block) :
    Shadows ⟨none, ⟨offset, block⟩ :: scan.blocks, scan.rules⟩
      ⟨none, ⟨offset, block⟩ :: other.blocks, other.rules⟩ where
  statement := rfl
  blocks := .cons ⟨rfl, .inl rfl⟩ h.blocks
  rules := h.rules
  stays hall := by
    obtain ⟨hblocks, hsites⟩ := h.stays hall
    exact ⟨by rw [hblocks], hsites⟩

/-- A rule is opened on both sides. -/
theorem openRule (h : Shadows scan other) (offset start : Nat) {selector selector' : String}
    (hstays : staysRule selector)
    (hselector : selector' = String.ofList (trimEnd (blankComments selector.toList))) :
    Shadows
      ⟨none, ⟨offset, .rule⟩ :: scan.blocks, scan.rules ++ [⟨selector, start, scan.parent, scan.depth⟩]⟩
      ⟨none, ⟨offset, .rule⟩ :: other.blocks, other.rules ++ [⟨selector', start, other.parent, other.depth⟩]⟩
    where
  statement := rfl
  blocks := .cons ⟨rfl, .inl rfl⟩ h.blocks
  rules := by
    have hkept : [StyleRule.mk selector start scan.parent scan.depth].filter
        (fun rule => staysRule rule.selector) = [⟨selector, start, scan.parent, scan.depth⟩] := by
      simp [hstays]
    rw [List.filter_append, hkept]
    exact List.rel_append h.rules (.cons ⟨hselector, rfl, h.parent_eq, h.depth_le⟩ .nil)
  stays hall := by
    obtain ⟨hblocks, hsites⟩ := h.stays (List.forall_mem_append.1 hall).1
    have hdepth : other.depth = scan.depth := by rw [Scan.depth, hblocks, Scan.depth]
    refine ⟨by rw [hblocks], ?_⟩
    rw [List.map_append, List.map_append, hsites, List.map_singleton, List.map_singleton, StyleRule.site,
      StyleRule.site, h.parent_eq, hdepth]

/-- A rule is opened on one side, and on the other a property. -/
theorem openProperty (h : Shadows scan other) (offset start : Nat) {selector : String}
    (hgone : ¬staysRule selector) :
    Shadows
      ⟨none, ⟨offset, .rule⟩ :: scan.blocks, scan.rules ++ [⟨selector, start, scan.parent, scan.depth⟩]⟩
      ⟨none, ⟨offset, .property⟩ :: other.blocks, other.rules⟩ where
  statement := rfl
  blocks := .cons ⟨rfl, .inr ⟨rfl, rfl⟩⟩ h.blocks
  rules := by
    have hnone : [StyleRule.mk selector start scan.parent scan.depth].filter
        (fun rule => staysRule rule.selector) = [] := by simp [hgone]
    rw [List.filter_append, hnone, List.append_nil]
    exact h.rules
  stays hall := absurd (hall _ (List.mem_append_right _ List.mem_cons_self)) hgone

/-- An opening brace. -/
theorem openBlock (h : Shadows scan other) {after : Scan} {brackets : Nat} {rest : List Char}
    (hsited : Sited .css scan brackets rest) (hopen : scan.openBlock offset = .ok after) :
    ∃ after', other.openBlock offset = .ok after' ∧ Shadows after after' := by
  have hstatement := h.statement
  unfold Scan.openBlock at hopen ⊢
  split at hopen
  next => cases hopen
  next statement heq =>
    cases hopen
    obtain ⟨text, pieces, hpieces, hbegun, hcuts⟩ := hsited.begun statement heq
    rw [heq, Option.map_some] at hstatement
    simp only [hstatement, hpieces, List.reverse_reverse, Scan.heading_reverse, headingOf_uncommented hcuts]
    refine ⟨_, rfl, ?_⟩
    rcases ofHeading_cases hcuts hbegun with ⟨hne, hsame⟩ | ⟨hrule, hstays, hrule'⟩ | ⟨hrule, hgone, hproperty⟩
    · rw [hsame, if_neg hne, if_neg hne]
      exact h.openOther offset _
    · rw [hrule, hrule', if_pos rfl, if_pos rfl]
      refine h.openRule offset _ hstays ?_
      rw [String.toList_ofList, trimEnd_blankComments_headingOf hcuts]
    · rw [hrule, hproperty, if_pos rfl, if_neg (by simp)]
      exact h.openProperty offset _ hgone

/-- One lexeme, and what it is read as without comments. -/
theorem take (h : Shadows scan other) {after : Scan} {brackets : Nat} {rest : List Char}
    (hsited : Sited .css scan brackets rest) (htake : scan.take ⟨offset, lexeme⟩ = .ok after) :
    ∃ after', Runs Lexeme.text Scan.take other offset lexeme.uncommented after' ∧ Shadows after after' := by
  cases lexeme with
  | comment tail =>
    -- the only lexeme that is more than one step on the other side
    cases htake
    rw [Scan.extend_eq_lengthened (.inr (by simp [Lexeme.isSignificant]))]
    refine ⟨_, Scan.runs_lengthened ?_ (.inr ?_) offset, h.comment tail⟩
    · intro lexeme hmem
      rw [List.eq_of_mem_replicate hmem]
      rfl
    · intro lexeme hmem
      rw [List.eq_of_mem_replicate hmem]
      exact Bool.false_ne_true
  | openBrace =>
    obtain ⟨after', hopen, hafter⟩ := h.openBlock hsited htake
    exact ⟨after', .single hopen, hafter⟩
  | closeBrace =>
    obtain ⟨after', hclose, hafter⟩ := h.close htake
    exact ⟨after', .single hclose, hafter⟩
  | semicolon =>
    cases htake
    exact ⟨_, .single rfl, rfl, h.blocks, h.rules, h.stays⟩
  | _ =>
    cases htake
    exact ⟨_, .single rfl, h.extend (by simp) offset⟩

/-- All lexemes. -/
theorem runs {brackets after : Nat} {text rest : List Char} {pieces : List Lexeme}
    (hcuts : Cuts .css brackets text pieces after rest) {scan other last : Scan} (h : Shadows scan other)
    (hsited : Sited .css scan brackets text) {offset : Nat}
    (hruns : Runs Lexeme.text Scan.take scan offset pieces last) :
    ∃ last', Runs Lexeme.text Scan.take other offset (pieces.flatMap Lexeme.uncommented) last' ∧
      Shadows last last' := by
  induction hcuts generalizing scan other offset with
  | done =>
    cases hruns
    exact ⟨other, .nil _ _, h⟩
  | @step _ _ _ lexeme _ _ _ _ hnext _ ih =>
    obtain ⟨middle, htake, hrest⟩ := hruns.exists_of_cons
    obtain ⟨middle', hfirst, hmiddle⟩ := h.take hsited htake
    obtain ⟨last', hothers, hlast⟩ := ih hmiddle (hsited.take hnext htake) hrest
    refine ⟨last', hfirst.append ?_, hlast⟩
    rw [written_uncommented, byteLength_blanked]
    exact hothers

theorem finish (h : Shadows scan other) {rules : List StyleRule} (hfinish : scan.finish = .ok rules) :
    rules = scan.rules ∧ other.finish = .ok other.rules := by
  obtain ⟨statement, blocks, rules⟩ := scan
  obtain ⟨statement', blocks', rules'⟩ := other
  have hblocks : List.Forall₂ BlockAlike blocks blocks' := h.blocks
  cases hblocks with
  | nil =>
    cases hfinish
    exact ⟨rfl, rfl⟩
  | cons => cases hfinish

end Shadows

/-- With spaces in the place of its comments, a stylesheet that parses still parses. Its rules are those
before that stay rules, and they are where they were if and only if all of them do. -/
theorem parse_blankComments {source : String} {rules : List StyleRule} (h : parse .css source = .ok rules) :
    byteLength (blankComments source.toList) = byteLength source.toList ∧
      ∃ others, parse .css (String.ofList (blankComments source.toList)) = .ok others ∧
        List.Forall₂ StyleRule.Outlines (rules.filter fun rule => staysRule rule.selector) others ∧
        (others.map StyleRule.site = rules.map StyleRule.site ↔ ∀ rule ∈ rules, staysRule rule.selector) := by
  obtain ⟨after, hcuts⟩ := (rules_of_parse h).cuts
  obtain ⟨last, hruns, hfinish⟩ := (collect_eq_ok_iff hcuts).1 h
  obtain ⟨last', hruns', hlast⟩ := Shadows.new.runs hcuts (.of_none rfl _) hruns
  obtain ⟨rfl, hfinish'⟩ := hlast.finish hfinish
  have hwritten : written Lexeme.text (lexemes .css source.toList).pieces = source.toList := by
    have hall := hcuts.written_append_rest
    rwa [List.append_nil] at hall
  have hblanked : blankComments source.toList = blankedText (lexemes .css source.toList).pieces := by
    rw [blankComments, hwritten, List.drop_length, List.append_nil]
  have hcuts' := hcuts.uncommented.1
  rw [List.append_nil, ← hblanked] at hcuts'
  refine ⟨by rw [hblanked, byteLength_blankedText, hwritten], last'.rules, ?_, hlast.rules, ?_, ?_⟩
  · rw [parse, String.toList_ofList]
    exact (collect_eq_ok_iff hcuts').2 ⟨last', hruns', hfinish'⟩
  · -- a rule that turned into a property would be missing in the count
    intro hsites
    have hlength := congrArg List.length hsites
    rw [List.length_map, List.length_map, ← hlast.rules.length_eq] at hlength
    exact List.length_filter_eq_length_iff.1 hlength
  · intro hall
    exact (hlast.stays hall).2

/-- The comments of `a/*{*/ b { c: /*;*/ d {} }` leave everything in its place. -/
theorem parse_blankComments_nested :
    parse .css "a/*\x7b*/ b \x7b c: /*;*/ d \x7b\x7d \x7d" =
        .ok [⟨"a/*\x7b*/ b", 0, .root, 0⟩, ⟨"c: /*;*/ d", 11, .rule, 1⟩] ∧
      ∃ others, parse .css "a      b \x7b c:       d \x7b\x7d \x7d" = .ok others ∧
        others.map StyleRule.site = [(0, .root, 0), (11, .rule, 1)] := by
  have hparse : parse .css "a/*\x7b*/ b \x7b c: /*;*/ d \x7b\x7d \x7d" =
      .ok [⟨"a/*\x7b*/ b", 0, .root, 0⟩, ⟨"c: /*;*/ d", 11, .rule, 1⟩] := by decide +kernel
  have hblanked : String.ofList (blankComments "a/*\x7b*/ b \x7b c: /*;*/ d \x7b\x7d \x7d".toList) =
      "a      b \x7b c:       d \x7b\x7d \x7d" := by decide +kernel
  obtain ⟨-, others, hothers, -, hiff⟩ := parse_blankComments hparse
  rw [hblanked] at hothers
  exact ⟨hparse, others, hothers, hiff.2 (by decide +kernel)⟩

/-- With a comment after the colon, `a: {}` is a rule. -/
theorem parse_blankComments_colon :
    parse .css "a: /**/ \x7b\x7d" = .ok [⟨"a: /**/", 0, .root, 0⟩] ∧
      String.ofList (blankComments "a: /**/ \x7b\x7d".toList) = "a:      \x7b\x7d" ∧
      parse .css "a:      \x7b\x7d" = .ok [] := by
  decide +kernel

end SelectorLint.Stylesheet
