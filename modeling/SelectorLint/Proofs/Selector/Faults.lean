import SelectorLint.Proofs.Selector.Boundaries
import SelectorLint.Proofs.Text.Finding

/-!
# Where the faults of a selector lie

The fault of a selector that does not parse is at the offset of what it is about (`Blames`,
`parse_fault_located`). It comes from one of three sides.

* A text that cannot be read has its fault at its start, or further along in it (`found_of_next`). What can
  stand there is told by the fault (`Fault.starts`), except for a word that ends in a backslash, which is at
  fault from its first character on.
* A lexeme that does not fit is at fault itself (`Assembly.starts_of_take`).
* At the end of the text, a group may be missing, or a parenthesis may be open; that one was read before
  (`Assembly.OpenedIn`).
-/

namespace SelectorLint.Selector

open Text Grammar

/-- What can stand at the offset of a fault. A word that ends in a backslash can start in any way. -/
def Fault.starts : Fault → List (List Char)
  | unexpectedCharacter c | unexpectedCombinator c => [[c]]
  | expectedSelector => [[','], [')']]
  | expectedClassName => [['.']]
  | expectedId => [['#']]
  | expectedPseudoName => [[':']]
  | emptyAttribute | unclosedAttribute => [['[']]
  | unclosedArgument => [['(']]
  | unclosedComment => [['/', '*']]
  | unclosedInterpolation => [['#', '{']]
  | unclosedString => quotes
  | unfinishedEscape => []

/-! ## Texts that cannot be read -/

/-- What can stand before the word of a lexeme. -/
def leads : List (List Char) := [[], ['.'], ['#'], [':'], [':', ':']]

/-- The trouble of a reading is found in the text that was read. -/
inductive Found (text : List Char) : Trouble Fault → Prop where
  | start {trouble start} (mem : start ∈ trouble.cause.starts)
      (found : FoundAt text trouble.distance start) : Found text trouble
  | escape {lead body} (mem : lead ∈ leads) (letters : Letters body)
      (text_eq : text = lead ++ body ++ ['\\']) : Found text ⟨byteLength lead, .unfinishedEscape⟩

section Reading

variable {rest : List Char} {trouble : Trouble Fault}

/-- The first character is at fault. -/
theorem found_head {c : Char} {fault : Fault} (h : [c] ∈ fault.starts) (rest : List Char) :
    Found (c :: rest) ⟨0, fault⟩ :=
  .start h (foundAt_zero [c] rest)

/-- A word has an interpolation that is not closed, or ends in a backslash. -/
theorem found_of_word {before : Nat} {text : List Char} (h : word before text = .error trouble) :
    trouble.cause = .unclosedInterpolation ∧ FoundFrom before text trouble.distance ['#', '{'] ∨
      trouble = ⟨0, .unfinishedEscape⟩ ∧ ∃ body, Letters body ∧ text = body ++ ['\\'] := by
  fun_induction word before text with
  | case1 | case7 => cases h
  | case2 =>
    cases h
    exact .inr ⟨rfl, [], .nil, rfl⟩
  | case3 before c rest ih =>
    rcases ih (map_eq_error_iff.1 h) with ⟨hcause, hfound⟩ | ⟨htrouble, body, hbody, rfl⟩
    · exact .inl ⟨hcause, hfound.append_left ['\\', c] (Nat.add_assoc _ _ _)⟩
    · exact .inr ⟨htrouble, '\\' :: c :: body, .escape hbody, rfl⟩
  | case4 before rest =>
    cases h
    exact .inl ⟨rfl, foundFrom_head before ['#', '{'] rest⟩
  | case5 before rest tail after hinner ih =>
    obtain rfl := interpolationTail_append hinner
    rcases ih (map_eq_error_iff.1 h) with ⟨hcause, hfound⟩ | ⟨htrouble, body, hbody, rfl⟩
    · have hlater : before + 2 + byteLength tail = before + byteLength (['#', '{'] ++ tail) := by
        rw [byteLength_append, ← Nat.add_assoc]
        rfl
      exact .inl ⟨hcause, hfound.append_left ('#' :: '{' :: tail) hlater⟩
    · obtain ⟨inner, hbalanced, rfl⟩ := closesBraces_of_interpolationTail hinner
      exact .inr ⟨htrouble, _, .interpolation hbalanced hbody, by simp⟩
  | case6 before c rest _ _ _ hc ih =>
    rcases ih (map_eq_error_iff.1 h) with ⟨hcause, hfound⟩ | ⟨htrouble, body, hbody, rfl⟩
    · exact .inl ⟨hcause, hfound.append_left [c] rfl⟩
    · exact .inr ⟨htrouble, c :: body, .character (isWordCharacter_iff.1 hc) hbody, rfl⟩

/-- The same for a word with a mark in front. -/
theorem found_of_lead {text : List Char} (lead : List Char) (hlead : lead ∈ leads)
    (h : word 0 text = .error trouble) : Found (lead ++ text) (trouble.after (byteLength lead)) := by
  rcases found_of_word h with ⟨hcause, hfound⟩ | ⟨rfl, body, hbody, rfl⟩
  · have hmem : ['#', '{'] ∈ (trouble.after (byteLength lead)).cause.starts := by
      rw [Trouble.after, hcause]
      exact List.mem_singleton_self _
    exact .start hmem ((hfound.foundAt [] rfl).append_left lead)
  · exact .escape hlead hbody (List.append_assoc _ _ _).symm

theorem found_of_name {text : List Char} {missing : Fault} (lead : List Char) (hlead : lead ∈ leads)
    (hmissing : Found (lead ++ text) ⟨0, missing⟩) (h : name (byteLength lead) missing text = .error trouble) :
    Found (lead ++ text) trouble := by
  unfold name at h
  split at h
  next hword =>
    cases h
    exact found_of_lead lead hlead hword
  · cases h
    exact hmissing
  · cases h

/-- The trouble of an attribute selector is that it is not closed itself, or that a quoted text in it is not. -/
theorem found_of_attributeBody {before : Nat} {text : List Char}
    (h : attributeBody before text = .error trouble) :
    trouble = ⟨0, .unclosedAttribute⟩ ∨ trouble.cause = .unclosedString ∧
      ∃ quote, isQuote quote ∧ FoundFrom before text trouble.distance [quote] := by
  fun_induction attributeBody before text with
  | case1 =>
    cases h
    exact .inl rfl
  | case2 => cases h
  | case3 before c rest _ hnone =>
    cases h
    have hquote : isQuote c := by
      unfold alongInBrackets at hnone
      split at hnone
      · assumption
      · cases hnone
    exact .inr ⟨rfl, c, hquote, foundFrom_head before [c] rest⟩
  | case4 before c rest _ tail after halong ih =>
    rcases ih (map_eq_error_iff.1 h) with hself | ⟨hcause, quote, hquote, hfound⟩
    · exact .inl hself
    · obtain rfl := alongInBrackets_append halong
      exact .inr ⟨hcause, quote, hquote, hfound.append_left (c :: tail) (by rw [byteLength_cons, Nat.add_assoc])⟩

theorem found_of_readString {quote : Char} (hquote : isQuote quote)
    (h : readString quote rest = .error trouble) : Found (quote :: rest) trouble := by
  unfold readString at h
  split at h
  · cases h
  · cases h
    exact found_head (mem_quotes_of_isQuote hquote) rest

theorem found_of_readTag {text : List Char} (h : readTag text = .error trouble) : Found text trouble := by
  have hfound := found_of_lead [] (by decide) (map_eq_error_iff.1 h)
  rwa [List.nil_append, byteLength_nil, Trouble.after, Nat.zero_add] at hfound

theorem found_of_readComment (h : readComment rest = .error trouble) : Found ('/' :: rest) trouble := by
  unfold readComment at h
  split at h
  next inner =>
    split at h
    · cases h
    · cases h
      exact .start (List.mem_singleton_self _) (foundAt_zero ['/', '*'] inner)
  next =>
    cases h
    exact found_head (by decide) rest

theorem found_of_readClass (h : readClass rest = .error trouble) : Found ('.' :: rest) trouble :=
  found_of_name ['.'] (by decide) (found_head (by decide) rest) (map_eq_error_iff.1 h)

theorem found_of_readHash (h : readHash rest = .error trouble) : Found ('#' :: rest) trouble := by
  unfold readHash at h
  split at h
  · exact found_of_readTag h
  · exact found_of_name ['#'] (by decide) (found_head (by decide) _) (map_eq_error_iff.1 h)

theorem found_of_readAttribute (h : readAttribute rest = .error trouble) : Found ('[' :: rest) trouble := by
  unfold readAttribute at h
  split at h
  next hbody =>
    cases h
    rcases found_of_attributeBody hbody with rfl | ⟨hcause, quote, hquote, hfound⟩
    · exact found_head (by decide) rest
    · exact .start (hcause ▸ mem_quotes_of_isQuote hquote) (hfound.foundAt ['['] rfl)
  next =>
    split at h
    · cases h
      exact found_head (by decide) rest
    · cases h

theorem found_of_readPseudoName {double : Bool} (h : readPseudoName double rest = .error trouble) :
    Found ((if double then [':', ':'] else [':']) ++ rest) trouble := by
  unfold readPseudoName at h
  split at h
  next hname =>
    cases h
    cases double with
    | false => exact found_of_name [':'] (by decide) (found_head (by decide) rest) hname
    | true => exact found_of_name [':', ':'] (by decide) (found_head (by decide) _) hname
  · cases h
  · cases h

theorem found_of_readPseudo (h : readPseudo rest = .error trouble) : Found (':' :: rest) trouble := by
  unfold readPseudo at h
  split at h
  · exact found_of_readPseudoName h
  · exact found_of_readPseudoName h

/-- What cannot be read has its fault in it. -/
theorem found_of_next {c : Char} (h : next c rest = .error trouble) : Found (c :: rest) trouble := by
  unfold next at h
  split at h
  · cases h
  split at h
  next hquote => exact found_of_readString hquote h
  split at h
  · exact found_of_readTag h
  split at h
  case h_3 =>
    unfold readChild at h
    split at h <;> cases h
  case h_6 => exact found_of_readComment h
  case h_7 => exact found_of_readClass h
  case h_8 => exact found_of_readHash h
  case h_9 => exact found_of_readAttribute h
  case h_10 => exact found_of_readPseudo h
  case h_13 =>
    cases h
    exact found_head (List.mem_singleton_self _) rest
  all_goals cases h

end Reading

/-- The lexing of a text ends before `rest`: at the end of the text, or before what cannot be read. -/
structure StopsBefore (text : List Char) (lexing : Lexing Lexeme Fault) (rest : List Char) : Prop where
  append_eq : written Lexeme.text lexing.pieces ++ rest = text
  wellFormed : ∀ lexeme ∈ lexing.pieces, lexeme.WellFormed
  ends : ∀ last ∈ lexing.pieces.getLast?, EndsBefore last rest
  stops : rest = [] ∧ lexing.trouble = none ∨
    ∃ c more trouble, rest = c :: more ∧ next c more = .error trouble ∧ lexing.trouble = some trouble

theorem StopsBefore.cons {c : Char} {more middle rest : List Char} {lexeme : Lexeme}
    {lexing : Lexing Lexeme Fault} (hnext : next c more = .ok (lexeme, middle))
    (h : StopsBefore middle lexing rest) : StopsBefore (c :: more) (lexing.cons lexeme) rest where
  append_eq := by
    rw [Lexing.cons, written_cons, List.append_assoc, h.append_eq]
    exact (splits_of_next hnext).append_eq
  wellFormed := List.forall_mem_cons.2 ⟨wellFormed_of_next hnext, h.wellFormed⟩
  ends := by
    intro last hlast
    obtain ⟨pieces, trouble⟩ := lexing
    cases pieces with
    | nil =>
      obtain rfl : lexeme = last := by simpa [Lexing.cons] using hlast
      obtain rfl : rest = middle := h.append_eq
      exact endsBefore_of_next hnext
    | cons second pieces =>
      rw [Lexing.cons, List.getLast?_cons_cons] at hlast
      exact h.ends last hlast
  stops := h.stops

theorem exists_stopsBefore (text : List Char) : ∃ rest, StopsBefore text (lexemes text) rest := by
  fun_induction lexemes text with
  | case1 => exact ⟨[], rfl, by simp, by simp, .inl ⟨rfl, rfl⟩⟩
  | case2 c more trouble hnext =>
    exact ⟨c :: more, rfl, by simp, by simp, .inr ⟨c, more, trouble, rfl, hnext, rfl⟩⟩
  | case3 c more lexeme middle hnext ih =>
    obtain ⟨rest, hrest⟩ := ih
    exact ⟨rest, hrest.cons hnext⟩

/-! ## Lexemes that do not fit -/

namespace Assembly

variable {assembly after : Assembly} {offset : Nat} {lexeme : Lexeme} {fault : Located Fault}

theorem eq_of_endGroup (h : assembly.endGroup offset = .error fault) :
    fault = ⟨offset, .expectedSelector⟩ := by
  unfold endGroup at h
  split at h
  · exact (Except.error.inj h).symm
  · cases h

/-- A lexeme that cannot be taken is at fault itself. -/
theorem starts_of_take (h : assembly.take ⟨offset, lexeme⟩ = .error fault) :
    fault.offset = offset ∧ ∃ start ∈ fault.cause.starts, start <+: lexeme.text := by
  unfold take at h
  split at h
  case h_2 heq =>
    obtain rfl := eq_of_endGroup h
    obtain rfl : lexeme = .comma := heq
    exact ⟨rfl, [','], by simp [Fault.starts], List.prefix_rfl⟩
  case h_3 heq =>
    obtain rfl : lexeme = .close := heq
    unfold closeArguments at h
    split at h
    · cases h
      exact ⟨rfl, [')'], List.mem_singleton_self _, List.prefix_rfl⟩
    · split at h
      · cases h
      · obtain rfl := eq_of_endGroup (map_eq_error_iff.1 h)
        exact ⟨rfl, [')'], by simp [Fault.starts], List.prefix_rfl⟩
  case h_5 sign heq =>
    obtain rfl : lexeme = .part (.combinator sign) := heq
    unfold takeCombinator at h
    split at h
    · cases h
      refine ⟨rfl, [sign.mark], List.mem_singleton_self _, ?_⟩
      cases sign <;> decide
    · cases h
  all_goals cases h

/-! ## Parentheses that are open -/

theorem outer_add (part : Placed Part) : (assembly.add part).outer = assembly.outer := by
  unfold add
  split <;> rfl

theorem outer_foldl_add (parts : List (Placed Part)) :
    (parts.foldl add assembly).outer = assembly.outer := by
  induction parts generalizing assembly with
  | nil => rfl
  | cons part parts ih => rw [List.foldl_cons, ih, outer_add]

theorem outer_addComments : assembly.addComments.outer = assembly.outer := by
  unfold addComments
  split
  · exact outer_foldl_add _
  · rfl

theorem outer_takeComponent (part : Placed Part) :
    (assembly.takeComponent part).outer = assembly.outer := by
  have hjoin : assembly.joinSpace.outer = assembly.outer := by
    unfold joinSpace
    split
    · exact outer_add _
    · rfl
  rw [takeComponent, enter, outer_add, outer_addComments, hjoin]

theorem mem_outer_of_closeArguments (h : assembly.closeArguments offset = .ok after) :
    ∀ waiting ∈ after.outer, waiting ∈ assembly.outer := by
  unfold closeArguments at h
  split at h
  · cases h
  next waiting outer houter =>
    have hafter : after.outer = outer := by
      split at h
      · cases h
        rfl
      · obtain ⟨ended, -, rfl⟩ := map_eq_ok_iff.1 h
        rfl
    intro other hother
    rw [hafter] at hother
    rw [houter]
    exact List.mem_cons_of_mem _ hother

/-- The parentheses that are open stand in the text `past`. -/
def OpenedIn (assembly : Assembly) (past : List Char) : Prop :=
  ∀ waiting ∈ assembly.outer, FoundAt past waiting.opened ['(']

theorem OpenedIn.mono {past : List Char} (h : assembly.OpenedIn past)
    (houter : ∀ waiting ∈ after.outer, waiting ∈ assembly.outer) (more : List Char) :
    after.OpenedIn (past ++ more) := by
  intro waiting hwaiting
  exact (h waiting (houter waiting hwaiting)).append_right more

theorem OpenedIn.new : Assembly.new.OpenedIn (written Lexeme.text []) := by simp [OpenedIn, Assembly.new]

/-- One lexeme. -/
theorem OpenedIn.take {past : List Char} (h : assembly.OpenedIn past) (hoffset : offset = byteLength past)
    (htake : assembly.take ⟨offset, lexeme⟩ = .ok after) : after.OpenedIn (past ++ lexeme.text) := by
  have hsame : after.outer = assembly.outer → after.OpenedIn (past ++ lexeme.text) :=
    fun heq => h.mono (fun waiting hwaiting => heq ▸ hwaiting) _
  cases lexeme with
  | blank c =>
    cases htake
    apply hsame
    unfold takeBlank
    split <;> rfl
  | comma => exact hsame (outer_endGroup htake)
  | close => exact h.mono (mem_outer_of_closeArguments htake) _
  | call double name =>
    cases htake
    intro waiting hwaiting
    rcases List.mem_cons.1 hwaiting with rfl | hwaiting
    · refine ⟨past ++ (Part.pseudo double name).text, [], ?_, ?_⟩
      · simp [Lexeme.text]
      · rw [byteLength_append, hoffset]
    · rw [outer_takeComponent] at hwaiting
      exact (h waiting hwaiting).append_right _
  | part piece =>
    cases piece with
    | combinator sign =>
      apply hsame
      have hcombinator : assembly.takeCombinator ⟨offset, sign⟩ = .ok after := htake
      unfold takeCombinator at hcombinator
      split at hcombinator
      · cases hcombinator
      · cases hcombinator
        exact (outer_add _).trans outer_addComments
    | comment tail =>
      cases htake
      apply hsame
      unfold takeComment
      split
      · rfl
      · exact outer_add _
    | _ =>
      cases htake
      exact hsame (outer_takeComponent _)

/-- All lexemes. -/
theorem OpenedIn.runs {past lexemes : List Lexeme} (h : assembly.OpenedIn (written Lexeme.text past))
    (hruns : Runs assembly (byteLength (written Lexeme.text past)) lexemes after) :
    after.OpenedIn (written Lexeme.text (past ++ lexemes)) := by
  refine hruns.invariant (fun past assembly => assembly.OpenedIn (written Lexeme.text past)) ?_ h
  intro past before lexeme middle hpast htake
  have hmiddle := hpast.take rfl htake
  rwa [written_append, written_cons, written_nil, List.append_nil]

/-- At the end, a group is missing there, or a parenthesis was not closed. -/
theorem fault_of_finish {past : List Char} (h : assembly.OpenedIn past)
    (hfinish : assembly.finish offset = .error fault) :
    fault = ⟨offset, .expectedSelector⟩ ∨
      ∃ opened, FoundAt past opened ['('] ∧ fault = ⟨opened, .unclosedArgument⟩ := by
  unfold finish at hfinish
  cases hended : assembly.endGroup offset with
  | error other =>
    rw [hended] at hfinish
    cases hfinish
    exact .inl (eq_of_endGroup hended)
  | ok ended =>
    rw [hended] at hfinish
    simp only [bind, Except.bind] at hfinish
    split at hfinish
    · cases hfinish
    next waiting outer houter =>
      cases hfinish
      rw [outer_endGroup hended] at houter
      exact .inr ⟨_, h waiting (houter ▸ List.mem_cons_self), rfl⟩

end Assembly

/-! ## Faults -/

/-- A word of the text begins after `front`: there are whole lexemes before it, those that are read, and perhaps a
mark. Without a mark it is not the rest of another word. -/
def BeginsWord (text front : List Char) : Prop :=
  ∃ lead ∈ leads, front = written Lexeme.text (lexemes text).pieces ++ lead ∧
    (∀ lexeme ∈ (lexemes text).pieces, lexeme.WellFormed) ∧
    (lead = [] → ∀ last ∈ (lexemes text).pieces.getLast?, ¬last.endsInWord)

/-- What the fault is about stands at its offset. -/
inductive Blames (text : List Char) : Located Fault → Prop where
  | start {fault start} (mem : start ∈ fault.cause.starts) (found : FoundAt text fault.offset start) :
      Blames text fault
  /-- A group is missing at the end. -/
  | finish : Blames text ⟨byteLength text, .expectedSelector⟩
  /-- The backslash at the end is the last character of a word. -/
  | escape {front body} (begins : BeginsWord text front) (letters : Letters body)
      (text_eq : text = front ++ body ++ ['\\']) : Blames text ⟨byteLength front, .unfinishedEscape⟩

/-- Letters before a backslash begin a word, and so does the backslash alone. -/
theorem exists_startsWord_of_letters {body : List Char} (h : Letters body) :
    ∃ c more, body ++ ['\\'] = c :: more ∧ StartsWord c more := by
  cases body with
  | nil => exact ⟨'\\', [], rfl, .inr (.inl rfl)⟩
  | cons c rest => exact ⟨c, rest ++ ['\\'], rfl, startsWord_of_letters h⟩

namespace Blames

variable {text : List Char} {fault : Located Fault}

/-- Only a missing group is not before the end. -/
theorem offset_lt_or_eq (h : Blames text fault) :
    fault.offset < byteLength text ∨ fault = ⟨byteLength text, .expectedSelector⟩ := by
  cases h with
  | start mem found => exact .inl (found.offset_lt mem (by cases fault.cause <;> simp [Fault.starts, quotes]))
  | finish => exact .inr rfl
  | escape begins letters text_eq =>
    left
    rw [text_eq, List.append_assoc, byteLength_append]
    exact Nat.lt_add_of_pos_right (byteLength_pos (by simp))

theorem offset_le (h : Blames text fault) : fault.offset ≤ byteLength text := by
  rcases h.offset_lt_or_eq with hlt | rfl
  · exact Nat.le_of_lt hlt
  · exact Nat.le_refl _

/-- The fault of the first lexeme that is not taken. -/
theorem of_run {rest : List Char} (hrest : StopsBefore text (lexemes text) rest)
    (h : (placed Lexeme.text 0 (lexemes text).pieces).foldlM Assembly.take Assembly.new = .error fault) :
    Blames text fault := by
  obtain ⟨front, lexeme, back, assembly, hpieces, -, htake⟩ := exists_of_foldlM_eq_error h
  obtain ⟨hoffset, start, hmem, tail, hstart⟩ := Assembly.starts_of_take htake
  refine .start hmem ⟨written Lexeme.text front, tail ++ written Lexeme.text back ++ rest, ?_, ?_⟩
  · rw [← hrest.append_eq, hpieces, written_append, written_cons, ← hstart]
    simp
  · rw [hoffset, Nat.zero_add]

/-- The trouble of the lexing. It lies after the lexemes, in the rest of the text. -/
theorem of_trouble {rest : List Char} (hrest : StopsBefore text (lexemes text) rest) {trouble : Trouble Fault}
    (h : Found rest trouble) :
    Blames text (trouble.locate (byteLength (written Lexeme.text (lexemes text).pieces))) := by
  cases h with
  | start mem found =>
    have hfound := found.append_left (written Lexeme.text (lexemes text).pieces)
    rw [hrest.append_eq] at hfound
    exact .start mem hfound
  | @escape lead body mem letters text_eq =>
    have htext : text = written Lexeme.text (lexemes text).pieces ++ lead ++ body ++ ['\\'] := by
      conv_lhs => rw [← hrest.append_eq, text_eq]
      simp
    have hbegins : BeginsWord text (written Lexeme.text (lexemes text).pieces ++ lead) := by
      refine ⟨lead, mem, rfl, hrest.wellFormed, fun hlead last hlast hends => ?_⟩
      -- the last lexeme would have gone on with this word
      obtain ⟨c, more, hword, hstarts⟩ := exists_startsWord_of_letters letters
      rw [hlead, List.nil_append] at text_eq
      exact (hrest.ends last hlast).word hends c more (text_eq.trans hword) hstarts
    have hblames := Blames.escape hbegins letters htext
    rwa [byteLength_append] at hblames

/-- The end of the text. -/
theorem of_finish {assembly : Assembly} (hopened : assembly.OpenedIn text)
    (h : assembly.finish (byteLength text) = .error fault) : Blames text fault := by
  rcases Assembly.fault_of_finish hopened h with rfl | ⟨opened, hfound, rfl⟩
  · exact .finish
  · exact .start (List.mem_singleton_self _) hfound

end Blames

theorem blames_of_parse {selector : String} {fault : Located Fault} (h : parse selector = .error fault) :
    Blames selector.toList fault := by
  obtain ⟨rest, hrest⟩ := exists_stopsBefore selector.toList
  unfold parse assemble at h
  cases hrun : (placed Lexeme.text 0 (lexemes selector.toList).pieces).foldlM Assembly.take
      Assembly.new with
  | error other =>
    rw [hrun] at h
    cases h
    exact .of_run hrest hrun
  | ok assembly =>
    rw [hrun] at h
    simp only [bind, Except.bind] at h
    rcases hrest.stops with ⟨rfl, htrouble⟩ | ⟨c, more, trouble, rfl, hnext, htrouble⟩
    · rw [htrouble] at h
      have hwritten := hrest.append_eq
      rw [List.append_nil] at hwritten
      have hend := Assembly.OpenedIn.new.runs hrun
      rw [List.nil_append, hwritten] at hend
      rw [hwritten] at h
      exact .of_finish hend h
    · rw [htrouble] at h
      cases h
      exact .of_trouble hrest (found_of_next hnext)

/-- The fault of a selector does not lie past its end. -/
theorem offset_le_of_parse {selector : String} {fault : Located Fault}
    (h : parse selector = .error fault) : fault.offset ≤ byteLength selector.toList :=
  (blames_of_parse h).offset_le

/-- What a fault is about stands at its offset. Only a group can be missing at the end of the selector. -/
theorem parse_fault_located {selector : String} {fault : Located Fault} (h : parse selector = .error fault) :
    fault.offset ≤ byteLength selector.toList ∧
      (fault.offset = byteLength selector.toList → fault.cause = .expectedSelector) ∧
      Blames selector.toList fault := by
  have hblames := blames_of_parse h
  refine ⟨hblames.offset_le, fun hend => ?_, hblames⟩
  rcases hblames.offset_lt_or_eq with hlt | rfl
  · exact absurd hend (Nat.ne_of_lt hlt)
  · rfl

/-- A word in arguments that ends in a backslash is at fault from its interpolation on. -/
theorem parse_fault_located_escape :
    parse ":not(a #\x7bb\x7d\\\x7dc\\" = .error ⟨7, .unfinishedEscape⟩ ∧
      Blames ":not(a #\x7bb\x7d\\\x7dc\\".toList ⟨7, .unfinishedEscape⟩ := by
  have hparse : parse ":not(a #\x7bb\x7d\\\x7dc\\" = .error ⟨7, .unfinishedEscape⟩ := by decide +kernel
  exact ⟨hparse, (parse_fault_located hparse).2.2⟩

end SelectorLint.Selector
