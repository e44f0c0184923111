import SelectorLint.Proofs.Selector.Leaves

/-!
# What the lexer of selectors gives out

A lexeme is well-formed if its characters are what the grammar allows at its place. The lexer gives out
only such lexemes, and their texts make up the text that was read (`lexemes_sound`).

The other way round, a text that begins with something of the grammar has the lexeme of it in front. For
words this is where maximal reading shows: whether a word goes on is decided by what comes next
(`StartsWord`).
-/

namespace SelectorLint.Selector

open Text Grammar

/-- The characters of a part are those that the grammar allows. -/
def Part.WellFormed : Part → Prop
  | descendant _ => False
  | combinator _ | nesting | universal => True
  | comment tail => ClosesComment tail
  | className name | id name | tag name | pseudo _ name => Word name
  | attr body => Content body ∧ trim body ≠ []
  | string quote tail => isQuote quote ∧ QuotedTail quote tail

/-- The characters of a lexeme are those that the grammar allows. -/
def Lexeme.WellFormed : Lexeme → Prop
  | blank c => isSpace c
  | comma | close => True
  | .part piece => piece.WellFormed
  | call _ name => Word name

theorem word_of_name {lead : Nat} {missing : Fault} {text piece rest : List Char}
    (h : name lead missing text = .ok (piece, rest)) : Word piece :=
  ⟨letters_of_word (name_eq_ok h).1, (name_eq_ok h).2⟩

/-! ## One lexeme -/

section WellFormed

variable {rest rest' : List Char} {lexeme : Lexeme}

theorem wellFormed_of_readComment (h : readComment rest = .ok (lexeme, rest')) :
    lexeme.WellFormed := by
  unfold readComment at h
  split at h
  · split at h
    next htail =>
      cases h
      exact closesComment_of_commentTail htail
    · cases h
  · cases h

theorem wellFormed_of_readChild (h : readChild rest = .ok (lexeme, rest')) : lexeme.WellFormed := by
  unfold readChild at h
  split at h
  all_goals
    cases h
    trivial

theorem wellFormed_of_readClass (h : readClass rest = .ok (lexeme, rest')) : lexeme.WellFormed := by
  obtain ⟨⟨piece, tail⟩, hname, heq⟩ := map_eq_ok_iff.1 h
  cases heq
  exact word_of_name hname

theorem wellFormed_of_readTag {c : Char}
    (hstart : isWordCharacter c ∨ c = '\\' ∨ c = '#' ∧ rest.head? = some '{')
    (h : readTag (c :: rest) = .ok (lexeme, rest')) : lexeme.WellFormed := by
  obtain ⟨⟨piece, tail⟩, hword, heq⟩ := map_eq_ok_iff.1 h
  cases heq
  exact ⟨letters_of_word hword, word_ne_nil hstart hword⟩

theorem wellFormed_of_readHash (h : readHash rest = .ok (lexeme, rest')) : lexeme.WellFormed := by
  unfold readHash at h
  split at h
  · exact wellFormed_of_readTag (.inr (.inr ⟨rfl, rfl⟩)) h
  · obtain ⟨⟨piece, tail⟩, hname, heq⟩ := map_eq_ok_iff.1 h
    cases heq
    exact word_of_name hname

theorem wellFormed_of_readAttribute (h : readAttribute rest = .ok (lexeme, rest')) :
    lexeme.WellFormed := by
  unfold readAttribute at h
  split at h
  · cases h
  next hbody =>
    split at h
    · cases h
    next hblank =>
      cases h
      exact ⟨content_of_attributeBody hbody, hblank⟩

theorem wellFormed_of_readString {quote : Char} (hquote : isQuote quote)
    (h : readString quote rest = .ok (lexeme, rest')) : lexeme.WellFormed := by
  unfold readString at h
  split at h
  next htail =>
    cases h
    exact ⟨hquote, quotedTail_of_quotedTail htail⟩
  · cases h

theorem wellFormed_of_readPseudoName {double : Bool}
    (h : readPseudoName double rest = .ok (lexeme, rest')) : lexeme.WellFormed := by
  unfold readPseudoName at h
  split at h
  · cases h
  all_goals
    next hname =>
      cases h
      exact word_of_name hname

theorem wellFormed_of_readPseudo (h : readPseudo rest = .ok (lexeme, rest')) :
    lexeme.WellFormed := by
  unfold readPseudo at h
  split at h
  all_goals exact wellFormed_of_readPseudoName h

theorem wellFormed_of_next {c : Char} (h : next c rest = .ok (lexeme, rest')) :
    lexeme.WellFormed := by
  unfold next at h
  split at h
  next hspace =>
    cases h
    exact hspace
  split at h
  next hquote => exact wellFormed_of_readString hquote h
  split at h
  next hstart => exact wellFormed_of_readTag (by grind) h
  split at h
  case h_3 => exact wellFormed_of_readChild h
  case h_6 => exact wellFormed_of_readComment h
  case h_7 => exact wellFormed_of_readClass h
  case h_8 => exact wellFormed_of_readHash h
  case h_9 => exact wellFormed_of_readAttribute h
  case h_10 => exact wellFormed_of_readPseudo h
  case h_13 => cases h
  all_goals
    cases h
    trivial

end WellFormed

/-! ## All lexemes -/

theorem lexemes_nil : lexemes [] = ⟨[], none⟩ := by
  rw [lexemes]

theorem lexemes_cons_of_next {c : Char} {rest rest' : List Char} {lexeme : Lexeme}
    (h : next c rest = .ok (lexeme, rest')) :
    lexemes (c :: rest) = (lexemes rest').cons lexeme := by
  rw [lexemes]
  split
  next herror =>
    rw [h] at herror
    cases herror
  next hok =>
    rw [h] at hok
    cases hok
    rfl

/-- A lexing without trouble loses nothing, and its lexemes are well-formed. -/
theorem lexemes_sound {text : List Char} (h : (lexemes text).trouble = none) :
    written Lexeme.text (lexemes text).pieces = text ∧
      ∀ lexeme ∈ (lexemes text).pieces, lexeme.WellFormed := by
  fun_induction lexemes text with
  | case1 => simp
  | case2 => cases h
  | case3 c rest lexeme rest' hnext ih =>
    obtain ⟨htext, hwell⟩ := ih h
    constructor
    · rw [Lexing.cons, written_cons, htext]
      exact (splits_of_next hnext).append_eq
    · intro other hother
      rcases List.mem_cons.1 hother with rfl | hother
      · exact wellFormed_of_next hnext
      · exact hwell other hother

theorem written_of_lexemes {text : List Char} {pieces : List Lexeme}
    (h : lexemes text = ⟨pieces, none⟩) : written Lexeme.text pieces = text := by
  have htrouble : (lexemes text).trouble = none := by rw [h]
  have hsound := (lexemes_sound htrouble).1
  rwa [h] at hsound

/-! ## Where a word goes on -/

/-- A word, or more of one, begins with the character `c` before `rest`. -/
def StartsWord (c : Char) (rest : List Char) : Prop :=
  isWordCharacter c ∨ c = '\\' ∨ c = '#' ∧ rest.head? = some '{'

theorem not_isSpace_of_isWordCharacter {c : Char} (h : isWordCharacter c) : ¬isSpace c := by
  intro hspace
  simp only [isSpace, Bool.or_eq_true, decide_eq_true_eq] at hspace
  rcases hspace with (((rfl | rfl) | rfl) | rfl) | rfl
  all_goals exact absurd h (by decide)

theorem not_isQuote_of_isWordCharacter {c : Char} (h : isWordCharacter c) : ¬isQuote c := by
  rw [isQuote_iff]
  intro hquote
  rcases hquote with rfl | rfl
  all_goals exact absurd h (by decide)

/-- What starts a word is read as a tag. -/
theorem next_of_startsWord {c : Char} {rest : List Char} (h : StartsWord c rest) :
    next c rest = readTag (c :: rest) := by
  unfold next
  rcases h with hword | rfl | ⟨rfl, hbrace⟩
  · rw [if_neg (not_isSpace_of_isWordCharacter hword), if_neg (not_isQuote_of_isWordCharacter hword)]
    simp [hword]
  · rfl
  · cases rest with
    | nil => cases hbrace
    | cons d rest =>
      obtain rfl : d = '{' := by simpa using hbrace
      rfl

theorem word_of_not_startsWord {c : Char} {rest : List Char} (h : ¬StartsWord c rest)
    (before : Nat) : word before (c :: rest) = .ok ([], c :: rest) := by
  simp only [StartsWord, not_or, not_and] at h
  obtain ⟨hword, hescape, hhash⟩ := h
  rw [word.eq_def]
  split
  next heq => cases heq
  next heq => exact absurd (List.cons.inj heq).1 hescape
  next heq => exact absurd (List.cons.inj heq).1 hescape
  next heq =>
    cases heq
    exact absurd rfl (hhash rfl)
  next heq =>
    cases heq
    rw [if_neg hword]

theorem startsWord_of_letters {c : Char} {rest more : List Char} (h : Letters (c :: rest)) :
    StartsWord c (rest ++ more) := by
  cases h with
  | character hc _ => exact .inl (isWordCharacter_iff.2 hc)
  | escape _ => exact .inr (.inl rfl)
  | interpolation _ _ => exact .inr (.inr ⟨rfl, rfl⟩)

end SelectorLint.Selector
