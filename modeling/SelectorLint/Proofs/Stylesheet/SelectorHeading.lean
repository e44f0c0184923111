import SelectorLint.Proofs.Selector.Recognition
import SelectorLint.Proofs.Stylesheet.Headings
import SelectorLint.Proofs.Stylesheet.Scanning

/-!
# Selectors as headings

Selectors and stylesheets are read by two lexers, which know nothing of each other. Here they are shown to
agree: a selector that parses, put before a block, is the heading of one style rule
(`parse_selector_block`). They do not read escapes, quoted texts, brackets, slashes and the rarer blanks
alike, so the selector must have none of these (`IsShared`).

The proof goes along the derivation of the selector in its grammar. Three things are needed of a derived
text: that the lexer of stylesheets gets through it without a brace or a semicolon (`Passes`), that it
does not end in a colon, which would make it a property (`Settled`), and what it begins with (`Begins`).
-/

namespace SelectorLint.Stylesheet

open Text Selector.Grammar

/-- The two lexers treat the character alike. -/
def IsShared (c : Char) : Prop :=
  c ∉ ['\\', '"', '\'', '[', '/'] ∧ (isBlank c → Selector.isSpace c)

instance (c : Char) : Decidable (IsShared c) := inferInstanceAs (Decidable (_ ∧ _))

/-! ## Texts without an effect on blocks -/

/-- The text is read to its end, whatever stands around it, and leaves the brackets and the blocks as
they are. There is no comment in it that would be masked. -/
def Passes (dialect : Dialect) (text : List Char) : Prop :=
  ∀ brackets rest, ∃ pieces, Cuts dialect brackets (text ++ rest) pieces brackets rest ∧
    ∀ lexeme ∈ pieces, lexeme.isInner ∧ lexeme.masked = lexeme.text

namespace Passes

variable {dialect : Dialect} {text more : List Char} {c : Char}

theorem nil : Passes dialect [] := fun _ _ => ⟨[], .done, by simp⟩

theorem append (h : Passes dialect text) (hmore : Passes dialect more) :
    Passes dialect (text ++ more) := by
  intro brackets rest
  obtain ⟨pieces, hcuts, hpieces⟩ := h brackets (more ++ rest)
  obtain ⟨others, hothers, hmasked⟩ := hmore brackets rest
  refine ⟨pieces ++ others, ?_, List.forall_mem_append.2 ⟨hpieces, hmasked⟩⟩
  rw [List.append_assoc]
  exact hcuts.append hothers

/-- A text that starts with one lexeme. -/
theorem cons (h : Passes dialect text)
    (hnext : ∀ brackets rest, ∃ lexeme,
      next dialect brackets c (text ++ rest) = .ok (lexeme, text ++ rest) ∧
      lexeme.bracketsAfter brackets = brackets ∧ lexeme.isInner ∧ lexeme.masked = lexeme.text) :
    Passes dialect (c :: text) := by
  intro brackets rest
  obtain ⟨lexeme, hfirst, hbrackets, hlexeme⟩ := hnext brackets rest
  obtain ⟨pieces, hcuts, hpieces⟩ := h brackets rest
  refine ⟨lexeme :: pieces, .step hfirst ?_, List.forall_mem_cons.2 ⟨hlexeme, hpieces⟩⟩
  rw [hbrackets]
  exact hcuts

/-- A character without a meaning of its own. -/
theorem unmarked (h : Passes dialect text) (hc : c ∉ marks) (hhash : c ≠ '#') :
    Passes dialect (c :: text) := by
  refine h.cons fun brackets rest => ⟨single brackets c, ?_, ?_⟩
  · have hslash : c ≠ '/' := fun heq => hc (by simp [heq, marks])
    have hquote : ¬isQuote c := by
      rw [isQuote_iff]
      rintro (rfl | rfl)
      · exact hc (by decide)
      · exact hc (by decide)
    rw [next, if_neg hslash, if_neg hhash, if_neg hquote]
  · rw [single_of_not_mem_marks hc]
    split
    · exact ⟨rfl, rfl, rfl⟩
    · exact ⟨rfl, rfl, rfl⟩

/-- A sign `#` that opens no interpolation. -/
theorem hash (h : Passes dialect text) (hhead : ∃ c rest, text = c :: rest ∧ c ≠ '{') :
    Passes dialect ('#' :: text) := by
  obtain ⟨c, tail, rfl, hne⟩ := hhead
  refine h.cons fun brackets rest => ⟨.plain '#', ?_, rfl, rfl, rfl⟩
  show readHash (c :: (tail ++ rest)) = _
  unfold readHash
  split
  next heq => exact absurd (List.cons.inj heq).1 hne
  · rfl

theorem parentheses (h : Passes dialect text) : Passes dialect ('(' :: text ++ [')']) := by
  intro brackets rest
  obtain ⟨pieces, hcuts, hpieces⟩ := h (brackets + 1) (')' :: rest)
  refine ⟨.openBracket '(' :: (pieces ++ [.closeBracket ')']), ?_, ?_⟩
  · have hclose : Cuts dialect (brackets + 1) (')' :: rest) [.closeBracket ')'] brackets rest :=
      .single rfl
    have hopen : next dialect brackets '(' (text ++ ')' :: rest) =
        .ok (.openBracket '(', text ++ ')' :: rest) := rfl
    have htext : '(' :: text ++ [')'] ++ rest = '(' :: (text ++ ')' :: rest) := by simp
    rw [htext]
    exact .step hopen (hcuts.append hclose)
  · refine List.forall_mem_cons.2 ⟨⟨rfl, rfl⟩, List.forall_mem_append.2 ⟨hpieces, ?_⟩⟩
    intro lexeme hlexeme
    obtain rfl := List.mem_singleton.1 hlexeme
    exact ⟨rfl, rfl⟩

end Passes

/-! ## Words -/

theorem isBlank_of_isSpace {c : Char} (h : Selector.isSpace c) : isBlank c := by
  simp only [Selector.isSpace, Bool.or_eq_true, decide_eq_true_eq] at h
  rcases h with (((rfl | rfl) | rfl) | rfl) | rfl
  all_goals decide

theorem not_isQuote_of_isShared {c : Char} (h : IsShared c) : ¬isQuote c := by
  rw [isQuote_iff]
  rintro (rfl | rfl)
  · exact h.1 (by decide)
  · exact h.1 (by decide)

theorem not_isBlank_of_isWordCharacter {c : Char} (hc : IsWordCharacter c) (h : IsShared c) :
    ¬isBlank c :=
  fun hblank => Selector.not_isSpace_of_isWordCharacter (Selector.isWordCharacter_iff.2 hc) (h.2 hblank)

theorem ne_of_isWordCharacter {c d : Char} (hc : IsWordCharacter c) (hd : ¬Selector.isWordCharacter d) :
    c ≠ d := by
  intro heq
  subst heq
  exact hd (Selector.isWordCharacter_iff.2 hc)

theorem not_mem_marks_of_isWordCharacter {c : Char} (hc : IsWordCharacter c) : c ∉ marks := by
  intro hmem
  simp only [marks, List.mem_cons, List.not_mem_nil, or_false] at hmem
  rcases hmem with rfl | rfl | rfl | rfl | rfl | rfl | rfl | rfl | rfl | rfl
  all_goals exact ne_of_isWordCharacter hc (by decide) rfl

/-- Braces in pairs leave the number of open ones as it is. -/
theorem interpolationTail_append_of_balanced {body : List Char} (h : Balanced body)
    (hquotes : ∀ c ∈ body, ¬isQuote c) (before inner : Nat) (rest : List Char) :
    interpolationTail before inner (body ++ rest) =
      (interpolationTail (before + byteLength body) inner rest).map (prepend body) := by
  induction h generalizing before inner rest with
  | nil => exact (Selector.exceptMap_prepend_nil _).symm
  | @character c tail hopen hclose _ ih =>
    obtain ⟨hc, htail⟩ := List.forall_mem_cons.1 hquotes
    rw [List.cons_append, interpolationTail_cons hopen hclose hc, ih htail,
      Selector.exceptMap_prepend_prepend, byteLength_cons, Nat.add_assoc]
    rfl
  | @braces first tail _ _ ihfirst ihtail =>
    have hassoc : '{' :: first ++ '}' :: tail ++ rest = '{' :: (first ++ '}' :: (tail ++ rest)) := by
      simp
    have hbytes : before + 1 + byteLength first + 1 + byteLength tail =
        before + byteLength ('{' :: first ++ '}' :: tail) := by
      simp only [List.cons_append, byteLength_cons, byteLength_append,
        show ('{' : Char).utf8Size = 1 from rfl, show ('}' : Char).utf8Size = 1 from rfl]
      omega
    have hfirst : ∀ c ∈ first, ¬isQuote c := fun c hc => hquotes c (by simp [hc])
    have htail : ∀ c ∈ tail, ¬isQuote c := fun c hc => hquotes c (by simp [hc])
    rw [hassoc, interpolationTail, ihfirst hfirst, interpolationTail, ihtail htail, hbytes,
      Selector.exceptMap_prepend_prepend, Selector.exceptMap_prepend_prepend,
      Selector.exceptMap_prepend_prepend]
    simp

theorem passes_interpolation {dialect : Dialect} {inner : List Char} (h : Balanced inner)
    (hquotes : ∀ c ∈ inner, ¬isQuote c) : Passes dialect ('#' :: '{' :: inner ++ ['}']) := by
  intro brackets rest
  have hread : next dialect brackets '#' ('{' :: (inner ++ '}' :: rest)) =
      .ok (.interpolation (inner ++ ['}']), rest) := by
    show readHash ('{' :: (inner ++ '}' :: rest)) = _
    rw [readHash, interpolationTail_append_of_balanced h hquotes, interpolationTail]
    rfl
  have htext : '#' :: '{' :: inner ++ ['}'] ++ rest = '#' :: '{' :: (inner ++ '}' :: rest) := by simp
  refine ⟨[.interpolation (inner ++ ['}'])], ?_, ?_⟩
  · rw [htext]
    exact .single hread
  · intro lexeme hlexeme
    obtain rfl := List.mem_singleton.1 hlexeme
    exact ⟨rfl, rfl⟩

theorem passes_of_letters {dialect : Dialect} {text : List Char} (h : Letters text)
    (hshared : ∀ c ∈ text, IsShared c) : Passes dialect text := by
  induction h with
  | nil => exact .nil
  | character hc _ ih =>
    obtain ⟨-, htail⟩ := List.forall_mem_cons.1 hshared
    exact (ih htail).unmarked (not_mem_marks_of_isWordCharacter hc) (ne_of_isWordCharacter hc (by decide))
  | escape => exact absurd (by decide) (hshared '\\' List.mem_cons_self).1
  | @interpolation inner tail hinner _ ih =>
    have hquotes : ∀ c ∈ inner, ¬isQuote c := fun c hc =>
      not_isQuote_of_isShared (hshared c (by simp [hc]))
    have htail := ih fun c hc => hshared c (by simp [hc])
    simpa using (passes_interpolation hinner hquotes).append htail

/-- A word starts with none of the characters that make something else of what is before it. -/
theorem exists_head_of_word {word : List Char} (h : Word word) (hshared : ∀ c ∈ word, IsShared c) :
    ∃ c rest, word = c :: rest ∧ ¬isBlank c ∧ (c = '#' ∨ IsWordCharacter c) := by
  obtain ⟨hletters, hne⟩ := h
  cases hletters with
  | nil => exact absurd rfl hne
  | character hc _ =>
    exact ⟨_, _, rfl, not_isBlank_of_isWordCharacter hc (hshared _ List.mem_cons_self), .inr hc⟩
  | escape => exact absurd (by decide) (hshared '\\' List.mem_cons_self).1
  | interpolation => exact ⟨_, _, rfl, by decide, .inl rfl⟩

/-! ## The last character -/

/-- No colon of the text has just blanks after it. -/
def Settled (text : List Char) : Prop :=
  ∀ before blanks, text = before ++ ':' :: blanks → ¬∀ c ∈ blanks, isBlank c

theorem settled_nil : Settled [] := by
  intro before blanks heq
  simp at heq

theorem settled_append {text more : List Char} (h : Settled text) (hmore : Settled more) :
    Settled (text ++ more) := by
  intro before blanks heq hblanks
  rcases List.append_eq_append_iff.1 heq with ⟨between, rfl, hright⟩ | ⟨between, hleft, hright⟩
  · exact hmore between blanks hright hblanks
  · cases between with
    | nil => exact hmore [] blanks hright.symm hblanks
    | cons c between =>
      obtain ⟨rfl, rfl⟩ := List.cons.inj hright
      exact h before between hleft fun c hc => hblanks c (List.mem_append_left _ hc)

theorem settled_cons {c : Char} {text : List Char} (h : Settled text) (hc : c ≠ ':') :
    Settled (c :: text) := by
  rintro (_ | ⟨d, before⟩) blanks heq
  · exact absurd (List.cons.inj heq).1 hc
  · exact h before blanks (List.cons.inj heq).2

/-- A colon before something that is not blank. -/
theorem settled_colon {text : List Char} (h : Settled text)
    (hhead : ∃ c rest, text = c :: rest ∧ ¬isBlank c) : Settled (':' :: text) := by
  rintro (_ | ⟨d, before⟩) blanks heq
  · obtain ⟨c, rest, rfl, hc⟩ := hhead
    obtain ⟨-, rfl⟩ := List.cons.inj heq
    exact fun hblanks => hc (hblanks c List.mem_cons_self)
  · exact h before blanks (List.cons.inj heq).2

/-- Whatever ends in something else than a colon. -/
theorem settled_concat {c : Char} (hcolon : c ≠ ':') (hc : ¬isBlank c) (text : List Char) :
    Settled (text ++ [c]) := by
  intro before blanks heq hblanks
  rcases List.eq_nil_or_concat blanks with rfl | ⟨front, last, rfl⟩
  · exact hcolon (List.cons.inj (List.append_inj' heq rfl).2).1
  · have hassoc : before ++ ':' :: (front ++ [last]) = before ++ ':' :: front ++ [last] := by simp
    rw [List.concat_eq_append, hassoc] at heq
    obtain rfl : c = last := (List.cons.inj (List.append_inj' heq rfl).2).1
    exact hc (hblanks c (by simp))

theorem settled_of_letters {text : List Char} (h : Letters text) (hshared : ∀ c ∈ text, IsShared c) :
    Settled text := by
  induction h with
  | nil => exact settled_nil
  | character hc _ ih =>
    exact settled_cons (ih (List.forall_mem_cons.1 hshared).2) (ne_of_isWordCharacter hc (by decide))
  | escape => exact absurd (by decide) (hshared '\\' List.mem_cons_self).1
  | @interpolation inner tail _ _ ih =>
    have hbraces := settled_concat (by decide : '}' ≠ ':') (by decide) ('#' :: '{' :: inner)
    have htail := ih fun c hc => hshared c (by simp [hc])
    simpa using settled_append hbraces htail

/-! ## Derived texts -/

/-- The text is read as a part of a heading and does not end it with a colon. -/
structure Readable (dialect : Dialect) (text : List Char) : Prop where
  passes : Passes dialect text
  settled : Settled text

namespace Readable

variable {dialect : Dialect} {text more word lead : List Char} {c : Char}

theorem nil : Readable dialect [] := ⟨.nil, settled_nil⟩

theorem append (h : Readable dialect text) (hmore : Readable dialect more) :
    Readable dialect (text ++ more) :=
  ⟨h.passes.append hmore.passes, settled_append h.settled hmore.settled⟩

theorem cons (h : Readable dialect text) (hc : c ∉ '#' :: ':' :: marks) :
    Readable dialect (c :: text) := by
  simp only [List.mem_cons, not_or] at hc
  exact ⟨h.passes.unmarked hc.2.2 hc.1, settled_cons h.settled hc.2.1⟩

theorem space (h : Readable dialect text) (hc : Selector.isSpace c) : Readable dialect (c :: text) := by
  simp only [Selector.isSpace, Bool.or_eq_true, decide_eq_true_eq] at hc
  rcases hc with (((rfl | rfl) | rfl) | rfl) | rfl
  all_goals exact h.cons (by decide)

theorem spaces (h : ∀ c ∈ text, Selector.isSpace c) : Readable dialect text := by
  induction text with
  | nil => exact nil
  | cons c text ih =>
    obtain ⟨hc, htext⟩ := List.forall_mem_cons.1 h
    exact (ih htext).space hc

theorem sign (h : text ∈ signs) : Readable dialect text := by
  simp only [signs, List.mem_cons, List.not_mem_nil, or_false] at h
  rcases h with rfl | rfl | rfl | rfl
  · exact ((nil.cons (by decide)).cons (by decide)).cons (by decide)
  all_goals exact nil.cons (by decide)

theorem of_word (h : Word word) (hshared : ∀ c ∈ word, IsShared c) : Readable dialect word :=
  ⟨passes_of_letters h.letters hshared, settled_of_letters h.letters hshared⟩

theorem id (h : Word word) (hshared : ∀ c ∈ word, IsShared c) : Readable dialect ('#' :: word) := by
  have hword : Readable dialect word := of_word h hshared
  obtain ⟨c, rest, rfl, -, hc⟩ := exists_head_of_word h hshared
  refine ⟨hword.passes.hash ⟨c, rest, rfl, ?_⟩, settled_cons hword.settled (by decide)⟩
  rcases hc with rfl | hc
  · decide
  · exact ne_of_isWordCharacter hc (by decide)

theorem pseudo (hlead : lead ∈ colons) (h : Word word) (hshared : ∀ c ∈ word, IsShared c) :
    Readable dialect (lead ++ word) := by
  have hword : Readable dialect word := of_word h hshared
  obtain ⟨c, rest, heq, hblank, -⟩ := exists_head_of_word h hshared
  have hone : Readable dialect (':' :: word) :=
    ⟨hword.passes.unmarked (by decide) (by decide), settled_colon hword.settled ⟨c, rest, heq, hblank⟩⟩
  simp only [colons, List.mem_cons, List.not_mem_nil, or_false] at hlead
  rcases hlead with rfl | rfl
  · exact hone
  · exact ⟨hone.passes.unmarked (by decide) (by decide),
      settled_colon hone.settled ⟨':', word, rfl, by decide⟩⟩

theorem parentheses (h : Readable dialect text) : Readable dialect ('(' :: text ++ [')']) :=
  ⟨h.passes.parentheses, settled_concat (by decide) (by decide) _⟩

end Readable

/-- What is derived in the grammar of selectors is read as a part of a heading. -/
theorem readable_of_derives {dialect : Dialect} {goal : Symbol} {text : List Char}
    (h : Derives goal text) (hshared : ∀ c ∈ text, IsShared c) : Readable dialect text := by
  induction h with
  | last _ ih | group _ _ _ ih => exact ih hshared
  | comma _ _ ih ihrest =>
    obtain ⟨hfirst, hrest⟩ := List.forall_mem_append.1 hshared
    exact (ih hfirst).append ((ihrest (List.forall_mem_cons.1 hrest).2).cons (by decide))
  | done => exact .nil
  | blank hc _ ih => exact (ih (List.forall_mem_cons.1 hshared).2).space hc
  | comment htext =>
    cases htext
    exact absurd (by decide) (hshared '/' (by simp)).1
  | combinator htext _ ih =>
    exact (Readable.sign htext).append (ih (List.forall_mem_append.1 hshared).2)
  | item _ _ ih ihrest =>
    obtain ⟨hfirst, hrest⟩ := List.forall_mem_append.1 hshared
    exact (ih hfirst).append (ihrest hrest)
  | className hword =>
    exact (Readable.of_word hword (List.forall_mem_cons.1 hshared).2).cons (by decide)
  | id hword => exact .id hword (List.forall_mem_cons.1 hshared).2
  | tag hword => exact .of_word hword hshared
  | nesting | universal => exact Readable.nil.cons (by decide)
  | quoted htext =>
    obtain ⟨hquote, -⟩ := htext
    exact absurd (isQuote_iff.2 hquote) (not_isQuote_of_isShared (hshared _ List.mem_cons_self))
  | attr => exact absurd (by decide) (hshared '[' List.mem_cons_self).1
  | pseudo hlead hword => exact .pseudo hlead hword (List.forall_mem_append.1 hshared).2
  | @emptyCall lead word blanks hlead hword hblanks =>
    have hname : Readable dialect (lead ++ word) :=
      .pseudo hlead hword fun c hc => hshared c (by simp [hc])
    simpa using hname.append (Readable.spaces hblanks).parentheses
  | @call lead word arguments hlead hword _ ih =>
    have hname : Readable dialect (lead ++ word) :=
      .pseudo hlead hword fun c hc => hshared c (by simp [hc])
    have harguments := ih fun c hc => hshared c (by simp [hc])
    simpa using hname.append harguments.parentheses

/-! ## The first character -/

/-- The character begins a statement, and not that of an at-rule. -/
def Leads (c : Char) : Prop := ¬isBlank c ∧ c ∉ ['@', ')', ']', '/']

instance (c : Char) : Decidable (Leads c) := inferInstanceAs (Decidable (_ ∧ _))

/-- There is something in the text, and it begins a statement. -/
def Begins (text : List Char) : Prop :=
  ∃ blanks c rest, text = blanks ++ c :: rest ∧ (∀ blank ∈ blanks, isBlank blank) ∧ Leads c

theorem begins_cons {c : Char} (h : Leads c) (rest : List Char) : Begins (c :: rest) :=
  ⟨[], c, rest, rfl, by simp, h⟩

theorem Begins.append {text : List Char} (h : Begins text) (more : List Char) :
    Begins (text ++ more) := by
  obtain ⟨blanks, c, rest, rfl, hblanks, hc⟩ := h
  exact ⟨blanks, c, rest ++ more, by simp, hblanks, hc⟩

theorem Begins.blank {text : List Char} {c : Char} (h : Begins text) (hc : isBlank c) :
    Begins (c :: text) := by
  obtain ⟨blanks, d, rest, rfl, hblanks, hd⟩ := h
  exact ⟨c :: blanks, d, rest, rfl, List.forall_mem_cons.2 ⟨hc, hblanks⟩, hd⟩

theorem begins_of_word {word : List Char} (h : Word word) (hshared : ∀ c ∈ word, IsShared c) :
    Begins word := by
  obtain ⟨c, rest, rfl, hblank, hc⟩ := exists_head_of_word h hshared
  refine begins_cons ⟨hblank, ?_⟩ rest
  rcases hc with rfl | hc
  · decide
  · have hmark := not_mem_marks_of_isWordCharacter hc
    have hat := ne_of_isWordCharacter hc (by decide : ¬Selector.isWordCharacter '@')
    simp only [marks, List.mem_cons, List.not_mem_nil, or_false, not_or] at hmark ⊢
    grind

theorem begins_of_colons {lead : List Char} (h : lead ∈ colons) : Begins lead := by
  simp only [colons, List.mem_cons, List.not_mem_nil, or_false] at h
  rcases h with rfl | rfl
  all_goals exact begins_cons (by decide) _

theorem begins_of_derives {goal : Symbol} {text : List Char} (h : Derives goal text)
    (hgoal : goal ≠ .items []) (hshared : ∀ c ∈ text, IsShared c) : Begins text := by
  induction h with
  | last _ ih => exact ih (by simp) hshared
  | group _ hne _ ih => exact ih (by simpa using hne) hshared
  | comma _ _ ih _ => exact (ih (by simp) (List.forall_mem_append.1 hshared).1).append _
  | done => exact absurd rfl hgoal
  | blank hc _ ih =>
    exact (ih hgoal (List.forall_mem_cons.1 hshared).2).blank (isBlank_of_isSpace hc)
  | comment htext =>
    cases htext
    exact absurd (by decide) (hshared '/' (by simp)).1
  | combinator htext _ _ =>
    simp only [signs, List.mem_cons, List.not_mem_nil, or_false] at htext
    rcases htext with rfl | rfl | rfl | rfl
    all_goals exact begins_cons (by decide) _
  | item _ _ ih _ => exact (ih (by simp) (List.forall_mem_append.1 hshared).1).append _
  | className | id | nesting | universal => exact begins_cons (by decide) _
  | tag hword => exact begins_of_word hword hshared
  | quoted htext =>
    obtain ⟨hquote, -⟩ := htext
    exact absurd (isQuote_iff.2 hquote) (not_isQuote_of_isShared (hshared _ List.mem_cons_self))
  | attr => exact absurd (by decide) (hshared '[' List.mem_cons_self).1
  | pseudo hlead _ => exact (begins_of_colons hlead).append _
  | emptyCall hlead _ _ | call hlead _ _ _ =>
    rw [List.append_assoc, List.append_assoc]
    exact (begins_of_colons hlead).append _

/-! ## A selector before a block -/

theorem isSignificant_of_leads {dialect : Dialect} {brackets : Nat} {c : Char} {more rest : List Char}
    {lexeme : Lexeme} (hc : Leads c) (h : next dialect brackets c more = .ok (lexeme, rest)) :
    lexeme.isSignificant := by
  obtain ⟨hblank, hmarks⟩ := hc
  simp only [List.mem_cons, List.not_mem_nil, or_false, not_or] at hmarks
  obtain ⟨-, hround, hsquare, hslash⟩ := hmarks
  unfold next at h
  rw [if_neg hslash] at h
  split at h
  · unfold readHash at h
    split at h
    · obtain ⟨⟨tail, after⟩, -, heq⟩ := map_eq_ok_iff.1 h
      cases heq
      rfl
    · cases h
      rfl
  · split at h
    · unfold readQuoted at h
      split at h
      · cases h
        rfl
      · cases h
    · cases h
      unfold single
      split
      case h_1 | h_2 => rfl
      case h_3 => exact absurd rfl hround
      case h_4 => exact absurd rfl hsquare
      case h_5 | h_6 | h_7 => split <;> rfl
      case h_8 =>
        rw [if_neg hblank]
        rfl

/-- Neither an at-rule nor a property. -/
theorem ofHeading_trimEnd {c : Char} {rest : List Char} (hc : Leads c) (h : Settled (c :: rest)) :
    Block.ofHeading (trimEnd (c :: rest)) = .rule := by
  obtain ⟨blanks, hblanks, htext⟩ := exists_trimEnd_eq (c :: rest)
  have hat : c ≠ '@' := by
    intro heq
    subst heq
    exact hc.2 (by decide)
  have hlast : (trimEnd (c :: rest)).getLast? ≠ some ':' := by
    intro hcolon
    obtain ⟨front, hfront⟩ := List.getLast?_eq_some_iff.1 hcolon
    rw [hfront, List.append_assoc, List.singleton_append] at htext
    exact h front blanks htext hblanks
  rw [trimEnd_cons hc.1] at hlast ⊢
  unfold Block.ofHeading
  split
  next heq => exact absurd (List.cons.inj heq).1 hat
  · rw [if_neg hlast]

/-- What follows white space is read if the whole is. -/
theorem Readable.of_blank {dialect : Dialect} {c : Char} {text : List Char} (hc : isBlank c)
    (h : Readable dialect (c :: text)) : Readable dialect text := by
  refine ⟨fun brackets rest => ?_, fun before blanks heq => ?_⟩
  · obtain ⟨pieces, hcuts, hpieces⟩ := h.passes brackets rest
    rcases hcuts.eq_nil_or_exists with ⟨-, heq⟩ | ⟨lexeme, middle, others, hnext, hothers, rfl⟩
    · have hlength : (c :: text ++ rest).length = rest.length := congrArg List.length heq
      simp only [List.cons_append, List.length_cons, List.length_append] at hlength
      omega
    · rw [next_of_isBlank hc] at hnext
      cases hnext
      exact ⟨others, hothers, (List.forall_mem_cons.1 hpieces).2⟩
  · exact h.settled (c :: before) blanks (by rw [heq]; rfl)

theorem Readable.of_blanks {dialect : Dialect} {blanks text : List Char}
    (hblanks : ∀ c ∈ blanks, isBlank c) (h : Readable dialect (blanks ++ text)) :
    Readable dialect text := by
  induction blanks with
  | nil => exact h
  | cons c blanks ih =>
    obtain ⟨hc, hrest⟩ := List.forall_mem_cons.1 hblanks
    exact ih hrest (h.of_blank hc)

/-- The lexemes of a heading with a blank after it. -/
theorem exists_cuts_of_readable {dialect : Dialect} {c : Char} {rest : List Char} (hc : Leads c)
    (h : Readable dialect (c :: rest)) (more : List Char) :
    ∃ statement, Cuts dialect 0 (c :: rest ++ ' ' :: more) statement 0 more ∧ IsStatement statement ∧
      headingOf statement = trimEnd (c :: rest) := by
  obtain ⟨pieces, hcuts, hpieces⟩ := h.passes 0 (' ' :: more)
  have hwritten : written Lexeme.text pieces = c :: rest := List.append_cancel_right hcuts.written_append_rest
  have hmasked : maskedText pieces = written Lexeme.text pieces :=
    maskedText_eq_written fun lexeme hlexeme => (hpieces lexeme hlexeme).2
  have hblank : Cuts dialect 0 (' ' :: more) [.blank ' '] 0 more := .single rfl
  refine ⟨pieces ++ [.blank ' '], hcuts.append hblank, ⟨?_, ?_⟩, ?_⟩
  · rcases hcuts.eq_nil_or_exists with ⟨rfl, -⟩ | ⟨first, middle, others, hnext, -, rfl⟩
    · cases hwritten
    · exact ⟨first, others ++ [.blank ' '], rfl, isSignificant_of_leads hc hnext⟩
  · refine List.forall_mem_append.2 ⟨fun lexeme hlexeme => (hpieces lexeme hlexeme).1, ?_⟩
    simp [Lexeme.isInner]
  · rw [headingOf, maskedText_append, hmasked, hwritten]
    exact trimEnd_append_blank _ (by decide)

/-- A statement before an empty block is the heading of one style rule, or there is no rule. -/
theorem runs_block {statement : List Lexeme} (h : IsStatement statement) (offset : Nat) :
    Runs Lexeme.text Scan.take .new offset (statement ++ [.openBrace, .closeBrace])
      ⟨none, [], if Block.ofHeading (headingOf statement) = .rule then
        [⟨String.ofList (headingOf statement), offset, .root, 0⟩] else []⟩ := by
  have hopen : ∀ brace, Scan.take ⟨some ⟨offset, statement.reverse⟩, [], []⟩ ⟨brace, .openBrace⟩ =
      .ok ⟨none, [⟨brace, Block.ofHeading (headingOf statement)⟩],
        if Block.ofHeading (headingOf statement) = .rule then
          [⟨String.ofList (headingOf statement), offset, .root, 0⟩] else []⟩ := by
    intro brace
    simp only [Scan.take, Scan.openBlock, Scan.heading_reverse]
    rfl
  exact (Scan.runs_statement h [] [] offset).append (.cons (hopen _) (.single rfl))

/-- A heading before an empty block makes one rule. -/
theorem collect_heading {dialect : Dialect} {blanks rest : List Char} {c : Char}
    (hblanks : ∀ blank ∈ blanks, isBlank blank) (hc : Leads c) (h : Readable dialect (c :: rest)) :
    collect (lexemes dialect (blanks ++ c :: rest ++ [' ', '{', '}'])) =
      .ok [⟨String.ofList (trimEnd (c :: rest)), byteLength blanks, .root, 0⟩] := by
  obtain ⟨statement, hcuts, hstatement, hheading⟩ := exists_cuts_of_readable hc h ['{', '}']
  have hlexemes : lexemes dialect (blanks ++ c :: rest ++ [' ', '{', '}']) =
      ⟨blanks.map .blank ++ (statement ++ [.openBrace, .closeBrace]), none⟩ := by
    have hblock : Cuts dialect 0 ['{', '}'] [.openBrace, .closeBrace] 0 [] := .step rfl (.step rfl .done)
    have hall := (cuts_blanks hblanks 0 _).append (hcuts.append hblock)
    rw [List.append_assoc, hall.lexemes_eq]
  have hbefore : Runs Lexeme.text Scan.take .new 0 (blanks.map .blank) .new :=
    Scan.runs_lengthened (by simp [Lexeme.isInner]) (.inr (by simp [Lexeme.isSignificant])) 0
  have hoffset : 0 + byteLength (written Lexeme.text (blanks.map Lexeme.blank)) = byteLength blanks := by
    rw [Nat.zero_add, written, List.flatMap_map]
    simp [Lexeme.text]
  have hrule : Block.ofHeading (headingOf statement) = .rule := by
    rw [hheading]
    exact ofHeading_trimEnd hc h.settled
  have hblock := runs_block hstatement (byteLength blanks)
  rw [if_pos hrule, ← hoffset] at hblock
  have hruns := hbefore.append hblock
  rw [hoffset, hheading] at hruns
  rw [hlexemes, collect, hruns]
  rfl

/-- A selector that parses, and that has only characters which both lexers read alike, is what a
stylesheet takes for the selector of a rule, apart from the white space around it. -/
theorem parse_selector_block {selector : String} (hparse : (Selector.parse selector).isOk)
    (hshared : ∀ c ∈ selector.toList, IsShared c) (dialect : Dialect) :
    parse dialect (selector ++ " \x7b\x7d") =
      .ok [⟨String.ofList (trim selector.toList), byteLength (selector.toList.takeWhile isBlank),
        .root, 0⟩] := by
  have hderives : Derives .selectors selector.toList := by
    cases htree : Selector.parse selector with
    | error fault =>
      rw [htree] at hparse
      cases hparse
    | ok tree =>
      obtain ⟨first, others, hlist, hlexemes, -⟩ := Selector.parse_eq_ok_iff.1 htree
      rw [← Selector.written_of_lexemes hlexemes]
      exact Selector.derives_selectors hlist.fits fun group hgroup item hitem =>
        Selector.derivable_of_valid (hlist.items group hgroup item hitem)
  obtain ⟨blanks, c, rest, htext, hblanks, hc⟩ := begins_of_derives hderives (by simp) hshared
  have hreadable : Readable dialect selector.toList := readable_of_derives hderives hshared
  have hdrop : (blanks ++ c :: rest).dropWhile isBlank = c :: rest := by
    rw [List.dropWhile_append_of_pos hblanks, List.dropWhile_cons_of_neg hc.1]
  have htake : (blanks ++ c :: rest).takeWhile isBlank = blanks := by
    rw [List.takeWhile_append_of_pos hblanks, List.takeWhile_cons_of_neg hc.1, List.append_nil]
  rw [htext] at hreadable
  rw [parse, String.toList_append, htext, trim, trimStart, hdrop, htake]
  exact collect_heading hblanks hc (hreadable.of_blanks hblanks)

theorem parse_selector_block_list :
    parse .scss ("\n a:not(.b, #\x7bc\x7d) > d, ::e " ++ " \x7b\x7d") =
      .ok [⟨"a:not(.b, #\x7bc\x7d) > d, ::e", 2, .root, 0⟩] := by
  have hall : "\n a:not(.b, #\x7bc\x7d) > d, ::e ".toList.all fun c => IsShared c := by
    decide +kernel
  have hshared : ∀ c ∈ "\n a:not(.b, #\x7bc\x7d) > d, ::e ".toList, IsShared c := by
    intro c hc
    exact of_decide_eq_true (List.all_eq_true.1 hall c hc)
  rw [parse_selector_block (by decide +kernel) hshared .scss]
  exact congrArg Except.ok (by decide +kernel)

end SelectorLint.Stylesheet
