import SelectorLint.Proofs.Selector.Placement
import SelectorLint.Proofs.Stylesheet.SelectorHeading

/-!
# Escaped characters in headings

In a selector a backslash makes any character a part of a word. A stylesheet knows no escapes outside of
quoted texts: there the escaped character keeps its meaning, and the backslash is a character like others.
So a class with escapes, put before a block, need not come back as the selector of a rule. It does if and
only if it `staysWhole` (`parse_class_block`).

Since the characters of a class never go together to a comment or an interpolation (`Apart`), each is a
lexeme of its own, and `openAfter` follows them.
-/

namespace SelectorLint.Stylesheet

open Text Selector.Grammar

/-- How many brackets are open after a text of which each character counts for itself, if a heading goes on
to there: it has no quotes, and no braces or semicolons outside of brackets. -/
def openAfter : Nat → List Char → Option Nat
  | brackets, [] => some brackets
  | brackets, c :: rest =>
    if isQuote c then none
    else if brackets = 0 ∧ c ∈ ['{', '}', ';'] then none
    else if c ∈ ['(', '['] then openAfter (brackets + 1) rest
    else if c ∈ [')', ']'] then openAfter (brackets - 1) rest
    else openAfter brackets rest

/-- A heading that ends with this text has it as it is, and is neither cut off nor taken for a property. -/
def staysWhole (text : List Char) : Bool :=
  openAfter 0 text = some 0 && text.getLast?.all fun c => c ≠ ':' && !isBlank c

/-- No two characters next to each other begin a comment or an interpolation. -/
def Apart : List Char → Prop
  | [] => True
  | c :: rest =>
    (c = '/' → rest.head? ≠ some '*' ∧ rest.head? ≠ some '/') ∧ (c = '#' → rest.head? ≠ some '{') ∧
      Apart rest

theorem Apart.cons {c : Char} {rest : List Char} (h : Apart rest) (hslash : c ≠ '/') (hhash : c ≠ '#') :
    Apart (c :: rest) :=
  ⟨fun heq => absurd heq hslash, fun heq => absurd heq hhash, h⟩

theorem Apart.of_append {front rest : List Char} (h : Apart (front ++ rest)) : Apart rest := by
  induction front with
  | nil => exact h
  | cons c front ih => exact ih h.2.2

/-! ## Lexemes of a single character -/

theorem masked_single_eq (brackets : Nat) (c : Char) :
    (single brackets c).masked = (single brackets c).text := by
  unfold single
  repeat' split
  all_goals rfl

theorem next_of_apart (dialect : Dialect) {c : Char} {rest : List Char} (h : Apart (c :: rest))
    (hquote : ¬isQuote c) (brackets : Nat) :
    next dialect brackets c rest = .ok (single brackets c, rest) := by
  obtain ⟨hslash, hhash, -⟩ := h
  by_cases hc : c = '/'
  · subst hc
    obtain ⟨hstar, hline⟩ := hslash rfl
    have hends : EndsBefore dialect brackets (.plain '/') rest :=
      ⟨by simp, fun _ => ⟨hstar, fun hhead => absurd hhead hline⟩, by simp⟩
    exact readSlash_of_endsBefore hends
  by_cases hsign : c = '#'
  · subst hsign
    show readHash rest = _
    unfold readHash
    split
    · exact absurd rfl (hhash rfl)
    · rfl
  rw [next, if_neg hc, if_neg hsign, if_neg hquote]

/-- What a character does to the heading is what its lexeme does. -/
theorem openAfter_cons (brackets : Nat) (c : Char) (rest : List Char) :
    openAfter brackets (c :: rest) =
      if isQuote c ∨ ¬(single brackets c).isInner then none
      else openAfter ((single brackets c).bracketsAfter brackets) rest := by
  rw [openAfter]
  generalize hsingle : single brackets c = lexeme
  unfold single at hsingle
  split at hsingle
  case h_1 | h_2 | h_3 | h_4 =>
    subst hsingle
    simp [isQuote, Lexeme.isInner, Lexeme.bracketsAfter]
  case h_5 | h_6 | h_7 =>
    subst hsingle
    by_cases hnone : brackets = 0
    · simp [hnone, Lexeme.isInner]
    · simp [hnone, isQuote, Lexeme.isInner, Lexeme.bracketsAfter]
  case h_8 hround hsquare hround' hsquare' hopen hclose hend =>
    have hinner : lexeme.isInner ∧ lexeme.bracketsAfter brackets = brackets := by
      subst hsingle
      split
      · exact ⟨rfl, rfl⟩
      · exact ⟨rfl, rfl⟩
    have hends : ¬(brackets = 0 ∧ c ∈ ['{', '}', ';']) := by
      simpa using fun _ => ⟨hopen, hclose, hend⟩
    have hopens : c ∉ ['(', '['] := by
      simpa using ⟨hround, hsquare⟩
    have hcloses : c ∉ [')', ']'] := by
      simpa using ⟨hround', hsquare'⟩
    rw [if_neg hends, if_neg hopens, if_neg hcloses, hinner.2]
    simp [hinner.1]

/-- A heading goes on to the end of a text if it does so according to `openAfter`. -/
theorem exists_cuts_of_openAfter (dialect : Dialect) {text rest : List Char} {brackets after : Nat}
    (hapart : Apart (text ++ rest)) (h : openAfter brackets text = some after) :
    ∃ pieces, Cuts dialect brackets (text ++ rest) pieces after rest ∧
      ∀ lexeme ∈ pieces, lexeme.isInner ∧ lexeme.masked = lexeme.text := by
  induction text generalizing brackets with
  | nil =>
    cases h
    exact ⟨[], .done, by simp⟩
  | cons c text ih =>
    rw [openAfter_cons] at h
    split at h
    · cases h
    next hc =>
      rw [not_or, not_not] at hc
      obtain ⟨pieces, hcuts, hpieces⟩ := ih hapart.2.2 h
      refine ⟨single brackets c :: pieces, .step (next_of_apart dialect hapart hc.1 brackets) hcuts, ?_⟩
      exact List.forall_mem_cons.2 ⟨⟨hc.2, masked_single_eq brackets c⟩, hpieces⟩

theorem openAfter_cons_of_not_mem_marks {c : Char} (hc : c ∉ marks) (brackets : Nat) (rest : List Char) :
    openAfter brackets (c :: rest) = openAfter brackets rest := by
  simp only [marks, List.mem_cons, List.not_mem_nil, or_false, not_or] at hc
  simp [openAfter, isQuote, hc]

/-! ## Words with escapes -/

/-- A run of word characters and escaped characters. -/
inductive PlainLetters : List Char → Prop where
  | nil : PlainLetters []
  | character {c rest} (hc : IsWordCharacter c) (tail : PlainLetters rest) : PlainLetters (c :: rest)
  | escape {c rest} (tail : PlainLetters rest) : PlainLetters ('\\' :: c :: rest)

theorem plainLetters_of_letters {text : List Char} (h : Letters text) (hhash : ¬['#', '{'] <:+: text) :
    PlainLetters text := by
  induction h with
  | nil => exact .nil
  | character hc _ ih => exact .character hc (ih fun hin => hhash (List.infix_cons hin))
  | escape _ ih => exact .escape (ih fun hin => hhash (List.infix_cons (List.infix_cons hin)))
  | @interpolation inner rest => exact absurd ⟨[], inner ++ '}' :: rest, by simp⟩ hhash

namespace PlainLetters

variable {text : List Char} {brackets : Nat}

/-- Where a heading does not go on: at a quote, or at a brace or a semicolon. It is an escaped character, so
that what follows is letters again. -/
theorem exists_of_openAfter_eq_none (h : PlainLetters text) (hnone : openAfter brackets text = none) :
    ∃ front c back after, text = front ++ c :: back ∧ PlainLetters back ∧
      openAfter brackets front = some after ∧ (isQuote c ∨ ¬(single after c).isInner) := by
  induction h generalizing brackets with
  | nil => cases hnone
  | @character c rest hc _ ih =>
    have hmark := not_mem_marks_of_isWordCharacter hc
    rw [openAfter_cons_of_not_mem_marks hmark] at hnone
    obtain ⟨front, d, back, after, rfl, hback, hfront, hd⟩ := ih hnone
    refine ⟨c :: front, d, back, after, rfl, hback, ?_, hd⟩
    rw [openAfter_cons_of_not_mem_marks hmark, hfront]
  | @escape c rest hrest ih =>
    have hmark : '\\' ∉ marks := by decide
    rw [openAfter_cons_of_not_mem_marks hmark, openAfter_cons] at hnone
    split at hnone
    next hc => exact ⟨['\\'], c, rest, brackets, rfl, hrest, openAfter_cons_of_not_mem_marks hmark _ _, hc⟩
    next hc =>
      obtain ⟨front, d, back, after, rfl, hback, hfront, hd⟩ := ih hnone
      refine ⟨'\\' :: c :: front, d, back, after, rfl, hback, ?_, hd⟩
      rw [openAfter_cons_of_not_mem_marks hmark, openAfter_cons, if_neg hc, hfront]

theorem head?_append (h : PlainLetters text) (more : List Char) :
    ∀ d ∈ ['*', '/', '{'], (text ++ ' ' :: more).head? ≠ some d := by
  cases h with
  | nil => simp
  | character hc =>
    intro d hd heq
    cases heq
    simp only [List.mem_cons, List.not_mem_nil, or_false] at hd
    rcases hd with rfl | rfl | rfl
    all_goals exact ne_of_isWordCharacter hc (by decide) rfl
  | escape => simp

/-- The letters are apart before a blank. -/
theorem apart (h : PlainLetters text) {more : List Char} (hmore : Apart more) :
    Apart (text ++ ' ' :: more) := by
  induction h with
  | nil => exact hmore.cons (by decide) (by decide)
  | character hc _ ih =>
    exact ih.cons (ne_of_isWordCharacter hc (by decide)) (ne_of_isWordCharacter hc (by decide))
  | escape hrest ih =>
    have hhead := hrest.head?_append more
    refine Apart.cons ?_ (by decide) (by decide)
    exact ⟨fun _ => ⟨hhead '*' (by decide), hhead '/' (by decide)⟩, fun _ => hhead '{' (by decide), ih⟩

/-- A quote among letters is never closed, since the next one of its sort has a backslash before it. -/
theorem quotedTail_append {quote : Char} (hquote : isQuote quote) (h : PlainLetters text) :
    quotedTail false quote (text ++ [' ', '{', '}']) = none := by
  rw [isQuote_iff] at hquote
  induction h with
  | nil => rcases hquote with rfl | rfl <;> rfl
  | @character c rest hc _ ih =>
    have hne : c ≠ quote := by
      rcases hquote with rfl | rfl
      all_goals exact ne_of_isWordCharacter hc (by decide)
    have hline : c ≠ '\n' := ne_of_isWordCharacter hc (by decide)
    have hescape : c ≠ '\\' := ne_of_isWordCharacter hc (by decide)
    simp [quotedTail, hne, hline, hescape, ih]
  | escape _ ih => simp [quotedTail, ih]

end PlainLetters

/-! ## A class before a block -/

/-- Up to where it goes on, a heading is a statement. -/
theorem exists_statement_of_openAfter (dialect : Dialect) {text rest : List Char} {after : Nat}
    (hapart : Apart (text ++ rest)) (h : openAfter 0 text = some after) :
    ∃ statement, Cuts dialect 0 ('.' :: text ++ rest) statement after rest ∧ IsStatement statement ∧
      maskedText statement = '.' :: text := by
  have hdot : openAfter 0 ('.' :: text) = some after := by
    rw [openAfter_cons_of_not_mem_marks (by decide), h]
  have hall : Apart ('.' :: text ++ rest) := hapart.cons (by decide) (by decide)
  obtain ⟨pieces, hcuts, hpieces⟩ := exists_cuts_of_openAfter dialect hall hdot
  have hwritten : written Lexeme.text pieces = '.' :: text := List.append_cancel_right hcuts.written_append_rest
  have hmasked : maskedText pieces = written Lexeme.text pieces :=
    maskedText_eq_written fun lexeme hlexeme => (hpieces lexeme hlexeme).2
  refine ⟨pieces, hcuts, ⟨?_, fun lexeme hlexeme => (hpieces lexeme hlexeme).1⟩, by rw [hmasked, hwritten]⟩
  rcases hcuts.eq_nil_or_exists with ⟨rfl, -⟩ | ⟨first, middle, others, hnext, -, rfl⟩
  · cases hwritten
  · exact ⟨first, others, rfl, isSignificant_of_leads (by decide) hnext⟩

section Class

variable {text : List Char}

theorem apart_block (h : PlainLetters text) : Apart (text ++ [' ', '{', '}']) := by
  refine h.apart ?_
  simp [Apart]

/-- With all brackets closed, the heading ends at the brace. -/
theorem collect_of_openAfter_zero (dialect : Dialect) (h : PlainLetters text)
    (hopen : openAfter 0 text = some 0) :
    collect (lexemes dialect ('.' :: text ++ [' ', '{', '}'])) =
      .ok (if Block.ofHeading (trimEnd ('.' :: text)) = .rule then
        [⟨String.ofList (trimEnd ('.' :: text)), 0, .root, 0⟩] else []) := by
  obtain ⟨statement, hcuts, hstatement, hmasked⟩ :=
    exists_statement_of_openAfter dialect (apart_block h) hopen
  have hblank : Cuts dialect 0 [' ', '{', '}'] [.blank ' '] 0 ['{', '}'] := .single rfl
  have hblock : Cuts dialect 0 ['{', '}'] [.openBrace, .closeBrace] 0 [] := .step rfl (.step rfl .done)
  have hheading : headingOf (statement ++ [.blank ' ']) = trimEnd ('.' :: text) := by
    rw [headingOf, maskedText_append, hmasked]
    exact trimEnd_append_blank _ (by decide)
  have hwhole : IsStatement (statement ++ [.blank ' ']) :=
    isStatement_append hstatement (by simp [Lexeme.isInner])
  have hruns := runs_block hwhole 0
  rw [hheading] at hruns
  rw [((hcuts.append hblank).append hblock).lexemes_eq, collect, hruns]
  rfl

/-- With a bracket open, the block is a part of the heading. -/
theorem collect_of_openAfter_succ (dialect : Dialect) (h : PlainLetters text) {inner : Nat}
    (hopen : openAfter 0 text = some (inner + 1)) :
    collect (lexemes dialect ('.' :: text ++ [' ', '{', '}'])) = .ok [] := by
  obtain ⟨statement, hcuts, hstatement, -⟩ := exists_statement_of_openAfter dialect (apart_block h) hopen
  have hend : Cuts dialect (inner + 1) [' ', '{', '}'] [.blank ' ', .plain '{', .plain '}'] (inner + 1) [] :=
    .step rfl (.step rfl (.step rfl .done))
  have hwhole : IsStatement (statement ++ [.blank ' ', .plain '{', .plain '}']) :=
    isStatement_append hstatement (by simp [Lexeme.isInner])
  have hruns : (placed Lexeme.text 0 (statement ++ [.blank ' ', .plain '{', .plain '}'])).foldlM
      Scan.take Scan.new = .ok ⟨_, [], []⟩ := Scan.runs_statement hwhole [] [] 0
  rw [(hcuts.append hend).lexemes_eq, collect, hruns]
  rfl

theorem next_of_isQuote {dialect : Dialect} {c : Char} (hc : isQuote c) (brackets : Nat) (rest : List Char) :
    next dialect brackets c rest = readQuoted c rest := by
  have hquote := hc
  rw [isQuote_iff] at hquote
  rw [next, if_neg, if_neg, if_pos hc]
  · rcases hquote with rfl | rfl <;> decide
  · rcases hquote with rfl | rfl <;> decide

/-- If the heading does not go on to the end of the text, a rule at its start has a shorter selector. -/
theorem selector_ne_of_openAfter_eq_none {dialect : Dialect} {source : String} {rules : List StyleRule}
    (h : PlainLetters text) (hsource : source.toList = '.' :: text ++ [' ', '{', '}'])
    (hopen : openAfter 0 text = none) (hparse : parse dialect source = .ok rules) :
    ∀ rule ∈ rules, rule.offset = 0 → rule.selector.toList ≠ '.' :: text := by
  obtain ⟨front, c, back, after, rfl, hback, hfront, hc⟩ := h.exists_of_openAfter_eq_none hopen
  have hrules := rules_of_parse hparse
  rw [hsource] at hrules
  have hapart : Apart (front ++ (c :: back ++ [' ', '{', '}'])) := by
    simpa using apart_block h
  obtain ⟨statement, hcuts, hstatement, hmasked⟩ := exists_statement_of_openAfter dialect hapart hfront
  have htext : '.' :: (front ++ c :: back) ++ [' ', '{', '}'] =
      '.' :: front ++ (c :: back ++ [' ', '{', '}']) := by simp
  rw [htext] at hrules
  obtain ⟨final, hall⟩ := hrules.cuts
  by_cases hquote : isQuote c
  · -- the quoted text that starts here does not end
    have hstops : Stops dialect after (c :: back ++ [' ', '{', '}']) (some ⟨0, .unclosedString⟩) := by
      refine .inr ⟨c, back ++ [' ', '{', '}'], _, rfl, ?_, rfl⟩
      rw [next_of_isQuote hquote, readQuoted, hback.quotedTail_append hquote]
    have htrouble := congrArg Lexing.trouble hcuts.lexemesFrom_eq
    rw [hall.lexemesFrom_eq, lexemesFrom_of_stops hstops, lexemesFrom] at htrouble
    cases htrouble
  · have hnext := next_of_apart dialect hapart.of_append hquote after
    have hpieces := congrArg Lexing.pieces (hcuts.append (.single hnext)).lexemesFrom_eq
    intro rule hrule hoffset hselector
    obtain ⟨before, heading, others, hpast, hheading, hbefore, hrest⟩ := hrules.headed rule hrule
    obtain rfl : before = [] := eq_nil_of_byteLength_written (hbefore.symm.trans hoffset)
    have hsame : statement = heading := by
      refine eq_of_append_cons hstatement.inner hheading.inner (hc.resolve_left hquote) ?_
        (((List.append_cons _ _ _).trans hpieces.symm).trans hpast)
      exact Bool.false_ne_true
    rw [hrest, String.toList_ofList, ← hsame, headingOf, hmasked] at hselector
    obtain ⟨blanks, -, hblanks⟩ := exists_trimEnd_eq ('.' :: front)
    rw [hselector] at hblanks
    have hlength := congrArg List.length hblanks
    simp only [List.length_append, List.length_cons] at hlength
    omega

end Class

theorem ofHeading_concat_eq_rule_iff {front : List Char} {c : Char} :
    Block.ofHeading ('.' :: (front ++ [c])) = .rule ↔ c ≠ ':' := by
  have hlast : ('.' :: (front ++ [c])).getLast? = some c := by
    rw [← List.cons_append, List.getLast?_concat]
  rw [Block.ofHeading, hlast]
  · simp
  · simp

theorem staysWhole_concat_iff {front : List Char} {c : Char} :
    staysWhole (front ++ [c]) ↔ openAfter 0 (front ++ [c]) = some 0 ∧ c ≠ ':' ∧ ¬isBlank c := by
  simp [staysWhole]

section Whole

variable {dialect : Dialect} {text : List Char}

theorem collect_of_staysWhole (hword : text ≠ []) (h : PlainLetters text) (hwhole : staysWhole text) :
    collect (lexemes dialect ('.' :: text ++ [' ', '{', '}'])) =
      .ok [⟨String.ofList ('.' :: text), 0, .root, 0⟩] := by
  rcases List.eq_nil_or_concat text with rfl | ⟨front, c, rfl⟩
  · exact absurd rfl hword
  rw [List.concat_eq_append] at h hwhole ⊢
  obtain ⟨hopen, hcolon, hblank⟩ := staysWhole_concat_iff.1 hwhole
  have htrim : trimEnd ('.' :: (front ++ [c])) = '.' :: (front ++ [c]) := by
    rw [← List.cons_append]
    exact trimEnd_concat_eq_iff.2 hblank
  rw [collect_of_openAfter_zero dialect h hopen, htrim, if_pos (ofHeading_concat_eq_rule_iff.2 hcolon)]

theorem selector_ne_of_not_staysWhole {source : String} {rules : List StyleRule} (hword : text ≠ [])
    (h : PlainLetters text) (hsource : source.toList = '.' :: text ++ [' ', '{', '}'])
    (hwhole : ¬staysWhole text) (hparse : parse dialect source = .ok rules) :
    ∀ rule ∈ rules, rule.offset = 0 → rule.selector.toList ≠ '.' :: text := by
  cases hopen : openAfter 0 text with
  | none => exact selector_ne_of_openAfter_eq_none h hsource hopen hparse
  | some after =>
    rw [parse, hsource] at hparse
    cases after with
    | succ inner =>
      rw [collect_of_openAfter_succ dialect h hopen] at hparse
      cases hparse
      simp
    | zero =>
      rw [collect_of_openAfter_zero dialect h hopen] at hparse
      cases hparse
      intro rule hrule _ hselector
      split at hrule
      next hheading =>
        obtain rfl := List.mem_singleton.1 hrule
        rw [String.toList_ofList] at hselector
        rw [hselector] at hheading
        rcases List.eq_nil_or_concat text with rfl | ⟨front, c, rfl⟩
        · exact absurd rfl hword
        rw [List.concat_eq_append] at *
        refine hwhole (staysWhole_concat_iff.2 ⟨hopen, ofHeading_concat_eq_rule_iff.1 hheading, ?_⟩)
        rw [← List.cons_append] at hselector
        exact trimEnd_concat_eq_iff.1 hselector
      next => cases hrule

end Whole

/-- The word of a class that a selector consists of. -/
theorem word_of_class {name : String}
    (h : (Selector.parse ("." ++ name)).map Selector.Tree.labels =
      .ok [⟨.selector, "", 0⟩, ⟨.className, name, 0⟩]) : Word name.toList := by
  obtain ⟨tree, hparse, hlabels⟩ := map_eq_ok_iff.1 h
  obtain ⟨-, rest, lexeme, back, -, -, hrest, hnode⟩ :=
    (Selector.labels_of_parse hparse).starts ⟨.className, name, 0⟩ (by simp [hlabels]) (by simp)
  have hwell : lexeme.WellFormed := by
    have htrouble : (Selector.lexemes rest).trouble = none := by rw [hrest]
    have hall := (Selector.lexemes_sound htrouble).2
    rw [hrest] at hall
    exact hall lexeme List.mem_cons_self
  cases lexeme with
  | part piece =>
    cases piece with
    | className word =>
      obtain ⟨-, hvalue⟩ := Prod.mk.inj (Option.some.inj hnode)
      rw [← show String.ofList word = name from hvalue, String.toList_ofList]
      exact hwell
    | _ => cases hnode
  | _ => cases hnode

/-- A class without interpolations, before an empty block, comes back as the selector of the only rule if it
stays whole. Otherwise no rule that starts at the class has it as its selector. -/
theorem parse_class_block {name : String}
    (hclass : (Selector.parse ("." ++ name)).map Selector.Tree.labels =
      .ok [⟨.selector, "", 0⟩, ⟨.className, name, 0⟩])
    (hhash : ¬['#', '{'] <:+: name.toList) (dialect : Dialect) :
    (staysWhole name.toList → parse dialect ("." ++ name ++ " \x7b\x7d") = .ok [⟨"." ++ name, 0, .root, 0⟩]) ∧
      (¬staysWhole name.toList → ∀ rules, parse dialect ("." ++ name ++ " \x7b\x7d") = .ok rules →
        ∀ rule ∈ rules, rule.offset = 0 → rule.selector ≠ "." ++ name) := by
  have hword := word_of_class hclass
  have hletters := plainLetters_of_letters hword.letters hhash
  have hsource : ("." ++ name ++ " \x7b\x7d").toList = '.' :: name.toList ++ [' ', '{', '}'] := by simp
  have hname : ("." ++ name).toList = '.' :: name.toList := by simp
  constructor
  · intro hwhole
    rw [parse, hsource, collect_of_staysWhole hword.ne_nil hletters hwhole, ← hname, String.ofList_toList]
  · intro hwhole rules hparse rule hrule hoffset hselector
    refine selector_ne_of_not_staysWhole hword.ne_nil hletters hsource hwhole hparse rule hrule hoffset ?_
    rw [hselector, hname]

/-- Braces in brackets, a slash and a sign `#` are escaped here without an effect on the stylesheet. -/
theorem parse_class_block_brackets :
    (Selector.parse ("." ++ "w-\\(\\\x7b\\)\\/\\#4")).map Selector.Tree.labels =
        .ok [⟨.selector, "", 0⟩, ⟨.className, "w-\\(\\\x7b\\)\\/\\#4", 0⟩] ∧
      parse .scss ("." ++ "w-\\(\\\x7b\\)\\/\\#4" ++ " \x7b\x7d") =
        .ok [⟨"." ++ "w-\\(\\\x7b\\)\\/\\#4", 0, .root, 0⟩] := by
  have hclass : (Selector.parse ("." ++ "w-\\(\\\x7b\\)\\/\\#4")).map Selector.Tree.labels =
      .ok [⟨.selector, "", 0⟩, ⟨.className, "w-\\(\\\x7b\\)\\/\\#4", 0⟩] := by
    decide +kernel
  have hhash : ¬['#', '{'] <:+: "w-\\(\\\x7b\\)\\/\\#4".toList := by decide +kernel
  exact ⟨hclass, (parse_class_block hclass hhash .scss).1 (by decide +kernel)⟩

/-- The escaped brace of this class opens a block in the stylesheet, and the next brace has nothing before
it. -/
theorem parse_class_block_brace :
    (Selector.parse ".\\\x7b").map Selector.Tree.labels =
        .ok [⟨.selector, "", 0⟩, ⟨.className, "\\\x7b", 0⟩] ∧
      parse .scss ".\\\x7b \x7b\x7d" = .error ⟨4, .missingHeading⟩ := by
  decide +kernel

end SelectorLint.Stylesheet
