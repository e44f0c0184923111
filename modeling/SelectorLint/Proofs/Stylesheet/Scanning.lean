import SelectorLint.Proofs.Stylesheet.Forest
import SelectorLint.Proofs.Text.Characters
import SelectorLint.Proofs.Text.Run

/-!
# The scan finds the rules of a forest

A forest that is written out and parsed gives back its rules (`parse_print`), in either dialect.

The text of a forest is lexed character by character, because it has no brackets, quotes or slashes, and
the brace of a block has a space before it, so that it opens no interpolation (`Quiet`). The scan is
then followed along the forest. What the induction carries is the state between two items: no statement
has begun, and the open blocks are those of the headings around.
-/

namespace SelectorLint.Stylesheet

open Text

/-! ## Lexing -/

/-- Each character of the text is a lexeme of its own, and no bracket. -/
def Quiet : List Char → Prop
  | [] => True
  | c :: rest =>
    c ∉ ['"', '\'', '/', '(', ')', '[', ']'] ∧ (c = '#' → rest.head? ≠ some '{') ∧ Quiet rest

theorem next_of_quiet {dialect : Dialect} {c : Char} {rest : List Char} (h : Quiet (c :: rest)) :
    next dialect 0 c rest = .ok (single 0 c, rest) := by
  obtain ⟨hc, hhash, -⟩ := h
  simp only [List.mem_cons, List.not_mem_nil, or_false, not_or] at hc
  unfold next
  rw [if_neg hc.2.2.1]
  by_cases hsign : c = '#'
  · subst hsign
    rw [if_pos rfl]
    unfold readHash
    split
    · exact absurd rfl (hhash rfl)
    · rfl
  · rw [if_neg hsign, if_neg (by simp [isQuote, hc.1, hc.2.1])]

theorem bracketsAfter_single {c : Char} {rest : List Char} (h : Quiet (c :: rest)) :
    (single 0 c).bracketsAfter 0 = 0 := by
  have hc := h.1
  unfold single
  split
  · simp at hc
  · simp at hc
  · simp at hc
  · simp at hc
  all_goals
    split <;> rfl

theorem lexemes_of_quiet {dialect : Dialect} {text : List Char} (h : Quiet text) :
    lexemes dialect text = ⟨text.map (single 0), none⟩ := by
  unfold lexemes
  induction text with
  | nil => rw [lexemesFrom, List.map_nil]
  | cons c rest ih =>
    rw [lexemesFrom]
    split
    next herror =>
      rw [next_of_quiet h] at herror
      cases herror
    next hok =>
      rw [next_of_quiet h] at hok
      cases hok
      rw [bracketsAfter_single h, ih h.2.2]
      rfl

/-- A text without marks stays quiet before another text, as long as no brace follows directly. -/
theorem quiet_append {text rest : List Char} (htext : ∀ c ∈ text, c ∉ marks) (hrest : Quiet rest)
    (hhead : rest.head? ≠ some '{') : Quiet (text ++ rest) := by
  induction text with
  | nil => exact hrest
  | cons c tail ih =>
    obtain ⟨hc, htail⟩ := List.forall_mem_cons.1 htext
    refine ⟨?_, ?_, ih htail⟩
    · simp only [marks, List.mem_cons, List.not_mem_nil, or_false, not_or] at hc ⊢
      simp [hc]
    · intro _
      cases tail with
      | nil => exact hhead
      | cons d tail =>
        have hd : d ∉ marks := htail d (by simp)
        intro hbrace
        obtain rfl : d = '{' := by simpa using hbrace
        exact hd (by decide)

theorem not_mem_marks_of_isBlank {c : Char} (h : isBlank c) : c ∉ marks := by
  intro hmem
  have hall : marks.all fun c => !isBlank c := by decide
  have hnot := List.all_eq_true.1 hall c hmem
  simp [h] at hnot

theorem Gap.unmarked (gap : Gap) : ∀ c ∈ gap.text, c ∉ marks :=
  fun c hc => not_mem_marks_of_isBlank (gap.blank c hc)

/-! ## Headings and statements are phrases -/

theorem not_isBlank_of_isNameCharacter {c : Char} (h : isNameCharacter c) : ¬isBlank c := by
  intro hblank
  simp only [isNameCharacter, Bool.or_eq_true, decide_eq_true_eq] at h
  rcases h with (halphanumeric | rfl) | rfl
  · exact not_isAlphanumeric_of_isBlank hblank halphanumeric
  · exact absurd hblank (by decide)
  · exact absurd hblank (by decide)

theorem not_mem_marks_of_isNameCharacter {c : Char} (h : isNameCharacter c) : c ∉ marks := by
  intro hmem
  have hall : marks.all fun c => c.toNat < 128 && !(c.isAlphanum || c = '-' || c = '_') := by decide
  have hmark := List.all_eq_true.1 hall c hmem
  simp only [Bool.and_eq_true, decide_eq_true_eq, Bool.not_eq_true'] at hmark
  rw [isNameCharacter, isAlphanumeric_of_lt hmark.1, hmark.2] at h
  cases h

theorem isPhrase_of_at {text : List Char} (hunmarked : ∀ c ∈ text, c ∉ marks)
    (hends : ∃ front c, text = front ++ [c] ∧ ¬isBlank c) : IsPhrase ('@' :: text) := by
  obtain ⟨front, c, rfl, hc⟩ := hends
  refine ⟨?_, ⟨'@', front ++ [c], rfl, by decide⟩, ⟨'@' :: front, c, rfl, hc⟩⟩
  exact List.forall_mem_cons.2 ⟨by decide, hunmarked⟩

theorem Name.unmarked (name : Name) : ∀ c ∈ name.text, c ∉ marks :=
  fun c hc => not_mem_marks_of_isNameCharacter (name.characters c hc)

theorem Parameters.unmarked (parameters : Parameters) : ∀ c ∈ parameters.text, c ∉ marks := by
  intro c hc
  rcases List.mem_append.1 hc with hgap | hphrase
  · exact parameters.gap.unmarked c hgap
  · exact parameters.phrase.isPhrase.unmarked c hphrase

theorem Heading.isPhrase (heading : Heading) : IsPhrase heading.text := by
  cases heading with
  | rule selector => exact selector.isPhrase
  | atRule name parameters =>
    cases parameters with
    | none =>
      apply isPhrase_of_at name.unmarked
      refine ⟨name.text.dropLast, name.text.getLast name.ne_nil, ?_, ?_⟩
      · exact (List.dropLast_concat_getLast name.ne_nil).symm
      · exact not_isBlank_of_isNameCharacter (name.characters _ (List.getLast_mem name.ne_nil))
    | some parameters =>
      obtain ⟨front, c, htext, hc⟩ := parameters.phrase.isPhrase.ends
      refine isPhrase_of_at ?_ ⟨name.text ++ parameters.gap.text ++ front, c, ?_, hc⟩
      · exact List.forall_mem_append.2 ⟨name.unmarked, parameters.unmarked⟩
      · simp [Parameters.text, htext]
  | property name =>
    obtain ⟨c, rest, htext, hc⟩ := name.isPhrase.starts
    have hcolon : ':' ∉ marks := by decide
    refine ⟨?_, ⟨c, rest ++ [':'], ?_, hc⟩, ⟨name.text, ':', rfl, by decide⟩⟩
    · exact List.forall_mem_append.2 ⟨name.isPhrase.unmarked, by simpa using hcolon⟩
    · simp [Heading.text, htext]

theorem Statement.isPhrase (content : Statement) : IsPhrase content.text := by
  cases content with
  | declaration phrase => exact phrase.isPhrase
  | atRule phrase => exact isPhrase_of_at phrase.isPhrase.unmarked phrase.isPhrase.ends

theorem takeWhile_name (name : Name) {rest : List Char}
    (hrest : ∀ c ∈ rest.head?, ¬isNameCharacter c) :
    (name.text ++ rest).takeWhile isNameCharacter = name.text := by
  rw [List.takeWhile_append_of_pos name.characters]
  cases rest with
  | nil => simp
  | cons c rest =>
    have hc : ¬isNameCharacter c := hrest c rfl
    rw [List.takeWhile_cons_of_neg hc, List.append_nil]

/-- A heading opens the block that it should. -/
theorem ofHeading_text (heading : Heading) : Block.ofHeading heading.text = heading.block := by
  cases heading with
  | rule selector hat hcolon =>
    unfold Block.ofHeading
    split
    next heq =>
      rw [Heading.text] at heq
      rw [heq] at hat
      exact absurd rfl hat
    · exact if_neg hcolon
  | atRule name parameters =>
    cases parameters with
    | none =>
      have hname := takeWhile_name name (show ∀ c ∈ [].head?, ¬isNameCharacter c by simp)
      rw [List.append_nil] at hname
      simp only [Heading.text, Block.ofHeading, hname, Heading.block]
    | some parameters =>
      obtain ⟨c, rest, hgap⟩ := List.exists_cons_of_ne_nil parameters.gap_ne_nil
      have hblank : isBlank c := parameters.gap.blank c (by simp [hgap])
      have hhead : ∀ d ∈ parameters.text.head?, ¬isNameCharacter d := by
        intro d hd hname
        obtain rfl : c = d := by simpa [Parameters.text, hgap] using hd
        exact not_isBlank_of_isNameCharacter hname hblank
      simp only [Heading.text, List.cons_append, Block.ofHeading, takeWhile_name name hhead,
        Heading.block]
  | property name hat =>
    obtain ⟨c, rest, htext, -⟩ := name.isPhrase.starts
    have hc : c ≠ '@' := by
      intro heq
      subst heq
      exact hat (by rw [htext]; rfl)
    unfold Block.ofHeading
    split
    next heq =>
      simp only [Heading.text, htext, List.cons_append, List.cons.injEq] at heq
      exact absurd heq.1 hc
    · exact if_pos (by simp [Heading.text])

/-! ## The text of a forest is quiet -/

theorem quiet_cons {c : Char} {rest : List Char} (hc : c ∉ ['"', '\'', '/', '(', ')', '[', ']'])
    (hsign : c ≠ '#') (hrest : Quiet rest) : Quiet (c :: rest) :=
  ⟨hc, fun heq => absurd heq hsign, hrest⟩

theorem quiet_print (forest : Forest) {rest : List Char} (hrest : Quiet rest)
    (hhead : rest.head? ≠ some '{') : Quiet (forest.print ++ rest) := by
  induction forest generalizing rest with
  | done gap => exact quiet_append gap.unmarked hrest hhead
  | statement gap content others ih =>
    have hafter : Quiet (';' :: (others.print ++ rest)) :=
      quiet_cons (by decide) (by decide) (ih hrest hhead)
    have hunmarked : ∀ c ∈ gap.text ++ content.text, c ∉ marks :=
      List.forall_mem_append.2 ⟨gap.unmarked, content.isPhrase.unmarked⟩
    have hall := quiet_append hunmarked hafter (by simp)
    simpa [Forest.print] using hall
  | block gap heading items others ihItems ihOthers =>
    have hafter : Quiet ('}' :: (others.print ++ rest)) :=
      quiet_cons (by decide) (by decide) (ihOthers hrest hhead)
    have hitems : Quiet (' ' :: '{' :: (items.print ++ '}' :: (others.print ++ rest))) :=
      quiet_cons (by decide) (by decide)
        (quiet_cons (by decide) (by decide) (ihItems hafter (by simp)))
    have hunmarked : ∀ c ∈ gap.text ++ heading.text, c ∉ marks :=
      List.forall_mem_append.2 ⟨gap.unmarked, heading.isPhrase.unmarked⟩
    have hall := quiet_append hunmarked hitems (by simp)
    simpa [Forest.print] using hall

/-! ## Scanning -/

/-- After the text `front`, the scan takes the characters of `text`, each as a lexeme, and gets to
`after`. -/
def Scans (front : List Char) (before : Scan) (text : List Char) (after : Scan) : Prop :=
  Runs Lexeme.text Scan.take before (byteLength front) (text.map (single 0)) after

theorem written_single (text : List Char) : written Lexeme.text (text.map (single 0)) = text := by
  induction text with
  | nil => rfl
  | cons c rest ih => rw [List.map_cons, written_cons, text_single, ih, List.singleton_append]

namespace Scans

variable {front first second : List Char} {before middle after : Scan}

theorem nil (front : List Char) (scan : Scan) : Scans front scan [] scan := Runs.nil _ _

theorem append (hfirst : Scans front before first middle)
    (hsecond : Scans (front ++ first) middle second after) :
    Scans front before (first ++ second) after := by
  unfold Scans at hfirst hsecond ⊢
  rw [List.map_append]
  apply hfirst.append
  rw [written_single, ← byteLength_append]
  exact hsecond

theorem single {c : Char}
    (hstep : before.take ⟨byteLength front, Stylesheet.single 0 c⟩ = .ok after) :
    Scans front before [c] after :=
  Runs.single hstep

theorem cons {c : Char} (hstep : before.take ⟨byteLength front, Stylesheet.single 0 c⟩ = .ok middle)
    (hrest : Scans (front ++ [c]) middle second after) : Scans front before (c :: second) after :=
  (single hstep).append hrest

end Scans

section Steps

variable {blocks : List (Placed Block)} {rules : List StyleRule}

/-- A character without a meaning of its own. -/
theorem single_of_not_mem_marks {c : Char} (h : c ∉ marks) {brackets : Nat} :
    single brackets c = if isBlank c then .blank c else .plain c := by
  unfold single
  split
  case h_8 => rfl
  all_goals exact absurd (by decide) h

theorem take_unmarked {c : Char} (h : c ∉ marks) (scan : Scan) (offset : Nat) :
    scan.take ⟨offset, single 0 c⟩ = .ok (scan.extend ⟨offset, single 0 c⟩) := by
  rw [single_of_not_mem_marks h]
  split <;> rfl

theorem scans_blank {text : List Char} (h : ∀ c ∈ text, isBlank c) (front : List Char) :
    Scans front ⟨none, blocks, rules⟩ text ⟨none, blocks, rules⟩ := by
  induction text generalizing front with
  | nil => exact .nil _ _
  | cons c rest ih =>
    obtain ⟨hc, hrest⟩ := List.forall_mem_cons.1 h
    refine .cons ?_ (ih hrest _)
    have hsingle : single 0 c = .blank c := by
      rw [single_of_not_mem_marks (not_mem_marks_of_isBlank hc), if_pos hc]
    rw [hsingle]
    rfl

/-- A statement that has begun goes on. -/
theorem scans_unmarked {text : List Char} (h : ∀ c ∈ text, c ∉ marks) (start : Nat)
    (pieces : List Lexeme) (front : List Char) :
    Scans front ⟨some ⟨start, pieces⟩, blocks, rules⟩ text
      ⟨some ⟨start, (text.map (single 0)).reverse ++ pieces⟩, blocks, rules⟩ := by
  induction text generalizing front pieces with
  | nil => exact .nil _ _
  | cons c rest ih =>
    obtain ⟨hc, hrest⟩ := List.forall_mem_cons.1 h
    rw [List.map_cons, List.reverse_cons, List.append_assoc]
    exact .cons (take_unmarked hc _ _) (ih hrest (single 0 c :: pieces) _)

/-- A phrase begins a statement. -/
theorem scans_phrase {text : List Char} (h : IsPhrase text) (front : List Char) :
    Scans front ⟨none, blocks, rules⟩ text
      ⟨some ⟨byteLength front, (text.map (single 0)).reverse⟩, blocks, rules⟩ := by
  obtain ⟨c, rest, rfl, hc⟩ := h.starts
  obtain ⟨hmark, hrest⟩ := List.forall_mem_cons.1 h.unmarked
  have hsignificant : (single 0 c).isSignificant := by
    rw [single_of_not_mem_marks hmark, if_neg hc]
    rfl
  have hstep : Scan.take ⟨none, blocks, rules⟩ ⟨byteLength front, single 0 c⟩ =
      .ok ⟨some ⟨byteLength front, [single 0 c]⟩, blocks, rules⟩ := by
    rw [take_unmarked hmark]
    simp only [Scan.extend, hsignificant, if_true]
  rw [List.map_cons, List.reverse_cons]
  exact .cons hstep (scans_unmarked hrest _ [single 0 c] _)

theorem masked_single {c : Char} (h : c ∉ marks) : (single 0 c).masked = [c] := by
  rw [single_of_not_mem_marks h]
  split <;> rfl

theorem flatMap_masked_single {text : List Char} (h : ∀ c ∈ text, c ∉ marks) :
    (text.map (single 0)).flatMap Lexeme.masked = text := by
  induction text with
  | nil => rfl
  | cons c rest ih =>
    obtain ⟨hc, hrest⟩ := List.forall_mem_cons.1 h
    rw [List.map_cons, List.flatMap_cons, masked_single hc, ih hrest, List.singleton_append]

/-- The heading is what was written before the brace, without the space in between. -/
theorem heading_eq {text : List Char} (h : IsPhrase text) :
    Scan.heading (.blank ' ' :: (text.map (single 0)).reverse) = text := by
  have hmasked := flatMap_masked_single h.unmarked
  obtain ⟨front, c, htext, hc⟩ := h.ends
  rw [Scan.heading, List.reverse_cons, List.reverse_reverse, List.flatMap_append, hmasked, htext]
  simp [trimEnd, Lexeme.masked, Lexeme.text, hc, show isBlank ' ' from rfl]

/-! ## Blocks -/

/-- The blocks that are open are those of the headings around. -/
def Around (blocks : List (Placed Block)) (around : List Heading) : Prop :=
  blocks.map (·.piece) = around.map Heading.block

variable {around : List Heading}

theorem parent_eq (h : Around blocks around) (statement : Option (Placed (List Lexeme))) :
    Scan.parent ⟨statement, blocks, rules⟩ = parentIn around := by
  unfold Around at h
  cases around with
  | nil =>
    obtain rfl : blocks = [] := List.map_eq_nil_iff.1 h
    rfl
  | cons heading around =>
    cases blocks with
    | nil => cases h
    | cons block blocks =>
      have hblock : block.piece = heading.block := (List.cons.inj h).1
      simp only [Scan.parent, hblock]
      cases heading <;> rfl

theorem depth_eq (h : Around blocks around) (statement : Option (Placed (List Lexeme))) :
    Scan.depth ⟨statement, blocks, rules⟩ = around.countP Heading.isRule := by
  have hrule : ∀ heading : Heading, decide (heading.block = .rule) = heading.isRule := by
    intro heading
    cases heading <;> rfl
  calc Scan.depth ⟨statement, blocks, rules⟩
      = (blocks.map (·.piece)).countP (fun block => block = .rule) := by
        rw [List.countP_map]
        rfl
    _ = (around.map Heading.block).countP (fun block => block = .rule) := by rw [h]
    _ = around.countP Heading.isRule := by
        rw [List.countP_map]
        exact congrArg (List.countP · around) (funext hrule)

/-- A heading and a brace open a block, and add a rule if the heading is that of one. -/
theorem openBlock_eq (h : Around blocks around) (heading : Heading) (front : List Char)
    (offset : Nat) :
    Scan.openBlock
        ⟨some ⟨byteLength front, .blank ' ' :: (heading.text.map (single 0)).reverse⟩, blocks, rules⟩
        offset =
      .ok ⟨none, ⟨offset, heading.block⟩ :: blocks, rules ++ heading.rules front around⟩ := by
  simp only [Scan.openBlock, heading_eq heading.isPhrase, ofHeading_text, parent_eq h, depth_eq h]
  cases heading with
  | rule selector => rfl
  | atRule | property => simp [Heading.block, Heading.rules]

end Steps

/-- Between items, a forest adds its rules and changes nothing else. -/
theorem scans_print (forest : Forest) {blocks : List (Placed Block)} {around : List Heading}
    (h : Around blocks around) (rules : List StyleRule) (front : List Char) :
    Scans front ⟨none, blocks, rules⟩ forest.print
      ⟨none, blocks, rules ++ forest.rules front around⟩ := by
  induction forest generalizing blocks around rules front with
  | done gap =>
    rw [Forest.rules, List.append_nil]
    exact scans_blank gap.blank _
  | statement gap content rest ih =>
    rw [Forest.print, Forest.rules]
    refine (scans_blank gap.blank _).append ((scans_phrase content.isPhrase _).append ?_)
    exact .cons rfl (ih h rules _)
  | block gap heading items rest ihItems ihRest =>
    -- the brace stands one character after the heading
    let before := front ++ gap.text ++ heading.text
    let opened : List (Placed Block) := ⟨byteLength (before ++ [' ']), heading.block⟩ :: blocks
    have hopen : Scans before
        ⟨some ⟨byteLength (front ++ gap.text), (heading.text.map (single 0)).reverse⟩, blocks, rules⟩
        [' ', '{'] ⟨none, opened, rules ++ heading.rules (front ++ gap.text) around⟩ :=
      .cons rfl (.single (openBlock_eq h heading _ _))
    have hitems := ihItems (show Around opened (heading :: around) from congrArg _ h)
      (rules ++ heading.rules (front ++ gap.text) around) (before ++ [' ', '{'])
    have hrest := ihRest h (rules ++ heading.rules (front ++ gap.text) around ++
      items.rules (before ++ [' ', '{']) (heading :: around)) (before ++ [' ', '{'] ++ items.print ++ ['}'])
    rw [Forest.print, Forest.rules, ← List.append_assoc rules, ← List.append_assoc rules]
    refine (scans_blank gap.blank _).append ((scans_phrase heading.isPhrase _).append ?_)
    exact hopen.append (hitems.append (.cons rfl hrest))

/-- A stylesheet that is written out from a forest parses, and its rules are those of the forest, each
with its text at its offset. -/
theorem parse_print (dialect : Dialect) (forest : Forest) :
    parse dialect (String.ofList forest.print) = .ok (forest.rules [] []) ∧
      ∀ rule ∈ forest.rules [] [], ∃ front back,
        forest.print = front ++ rule.selector.toList ++ back ∧ byteLength front = rule.offset := by
  constructor
  · have hquiet : Quiet forest.print := by
      simpa using quiet_print forest (show Quiet [] from trivial) (by simp)
    have hscans : (placed Lexeme.text 0 (forest.print.map (single 0))).foldlM Scan.take Scan.new =
        .ok ⟨none, [], forest.rules [] []⟩ :=
      scans_print forest (show Around [] [] from rfl) [] []
    rw [parse, String.toList_ofList, lexemes_of_quiet hquiet, collect, hscans]
    rfl
  · intro rule hrule
    exact Forest.exists_print_eq hrule

end SelectorLint.Stylesheet
