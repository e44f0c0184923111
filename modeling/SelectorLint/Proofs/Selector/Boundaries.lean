import Mathlib.Data.List.Chain
import SelectorLint.Proofs.Selector.Placement

/-!
# Where the lexemes of a selector end

What is read first in a text depends on what follows it in three cases only: a word could have more
letters, a pseudo-class could have arguments, and the sign `>` could be the first of three. `EndsBefore`
says what they ask of the rest. A lexeme that was read ends before its rest (`endsBefore_of_next`), and it
is read again before every rest that it ends before (`next_append`).

So lexemes are those of some text just when each ends before the next ones (`lexemes_eq_ok_iff`). If these
are well-formed, the first of them decides (`separate_of_isChain`).
-/

namespace SelectorLint.Selector

open Text Grammar

/-- The lexeme ends in a word. -/
def Lexeme.endsInWord : Lexeme → Bool
  | .part (.className _) | .part (.id _) | .part (.tag _) | .part (.pseudo _ _) => true
  | _ => false

/-- The lexeme goes no further if `rest` comes next. -/
structure EndsBefore (lexeme : Lexeme) (rest : List Char) : Prop where
  word : lexeme.endsInWord → ∀ c more, rest = c :: more → ¬StartsWord c more
  arguments : ∀ double name, lexeme = .part (.pseudo double name) → rest.head? ≠ some '('
  sign : lexeme = .part (.combinator .child) → ¬['>', '>'] <+: rest

theorem not_startsWord {c : Char} (hword : isWordCharacter c = false) (hescape : c ≠ '\\')
    (hhash : c ≠ '#') (more : List Char) : ¬StartsWord c more := by
  simp [StartsWord, hword, hescape, hhash]

/-! ## One lexeme -/

section EndsBefore

variable {lexeme : Lexeme} {rest : List Char}

/-- A lexeme that is none of the three ends wherever it ends. -/
theorem endsBefore_of_ne (hword : lexeme.endsInWord = false)
    (hsign : lexeme ≠ .part (.combinator .child)) (rest : List Char) : EndsBefore lexeme rest where
  word hends := by
    rw [hword] at hends
    cases hends
  arguments double name heq := by
    rw [heq] at hword
    cases hword
  sign heq := absurd heq hsign

/-- A lexeme that was read up to the end of a word. -/
theorem endsBefore_of_word {before : Nat} {text piece : List Char}
    (h : word before text = .ok (piece, rest))
    (harguments : ∀ double name, lexeme = .part (.pseudo double name) → rest.head? ≠ some '(')
    (hsign : lexeme ≠ .part (.combinator .child)) : EndsBefore lexeme rest where
  word _ c more heq hstarts := by
    subst heq
    exact word_ne_nil hstarts (word_rest h 0) rfl
  arguments := harguments
  sign heq := absurd heq hsign

theorem endsBefore_of_readTag {text : List Char} (h : readTag text = .ok (lexeme, rest)) :
    EndsBefore lexeme rest := by
  obtain ⟨⟨piece, tail⟩, hword, heq⟩ := map_eq_ok_iff.1 h
  cases heq
  exact endsBefore_of_word hword (by simp) (by simp)

theorem endsBefore_of_readChild {more : List Char} (h : readChild more = .ok (lexeme, rest)) :
    EndsBefore lexeme rest := by
  unfold readChild at h
  split at h
  · cases h
    exact endsBefore_of_ne rfl (by simp) _
  next hdeep =>
    cases h
    refine ⟨by simp [Lexeme.endsInWord], by simp, ?_⟩
    rintro - ⟨tail, rfl⟩
    exact hdeep tail rfl

theorem endsBefore_of_readHash {more : List Char} (h : readHash more = .ok (lexeme, rest)) :
    EndsBefore lexeme rest := by
  unfold readHash at h
  split at h
  · exact endsBefore_of_readTag h
  · obtain ⟨⟨piece, tail⟩, hname, heq⟩ := map_eq_ok_iff.1 h
    cases heq
    exact endsBefore_of_word (name_eq_ok hname).1 (by simp) (by simp)

theorem endsBefore_of_readPseudoName {double : Bool} {more : List Char}
    (h : readPseudoName double more = .ok (lexeme, rest)) : EndsBefore lexeme rest := by
  unfold readPseudoName at h
  split at h
  · cases h
  · cases h
    exact endsBefore_of_ne rfl (by simp) _
  next hparen hname =>
    cases h
    refine endsBefore_of_word (name_eq_ok hname).1 (fun _ _ _ hhead => ?_) (by simp)
    obtain ⟨tail, rfl⟩ := List.head?_eq_some_iff.1 hhead
    exact hparen tail rfl

/-- What was read ends before what is left. -/
theorem endsBefore_of_next {c : Char} {more : List Char} (h : next c more = .ok (lexeme, rest)) :
    EndsBefore lexeme rest := by
  unfold next at h
  split at h
  · cases h
    exact endsBefore_of_ne rfl (by simp) _
  split at h
  · unfold readString at h
    split at h
    · cases h
      exact endsBefore_of_ne rfl (by simp) _
    · cases h
  split at h
  · exact endsBefore_of_readTag h
  split at h
  case h_3 => exact endsBefore_of_readChild h
  case h_6 =>
    unfold readComment at h
    split at h
    · split at h
      · cases h
        exact endsBefore_of_ne rfl (by simp) _
      · cases h
    · cases h
  case h_7 =>
    obtain ⟨⟨piece, tail⟩, hname, heq⟩ := map_eq_ok_iff.1 h
    cases heq
    exact endsBefore_of_word (name_eq_ok hname).1 (by simp) (by simp)
  case h_8 => exact endsBefore_of_readHash h
  case h_9 =>
    unfold readAttribute at h
    split at h
    · cases h
    · split at h
      · cases h
      · cases h
        exact endsBefore_of_ne rfl (by simp) _
  case h_10 =>
    unfold readPseudo at h
    split at h
    all_goals exact endsBefore_of_readPseudoName h
  case h_13 => cases h
  all_goals
    cases h
    exact endsBefore_of_ne rfl (by simp) _

/-- A word is read whole before what starts no word. -/
theorem word_append_of_not_startsWord {text : List Char} (htext : Letters text)
    (h : ∀ c more, rest = c :: more → ¬StartsWord c more) : word 0 (text ++ rest) = .ok (text, rest) := by
  have hrest : ∀ before, word before rest = .ok ([], rest) := by
    intro before
    cases rest with
    | nil => rw [word]
    | cons c more => exact word_of_not_startsWord (h c more rfl) before
  rw [word_append_of_letters htext, hrest]
  simp [Except.map]

theorem next_pseudo_append {double : Bool} {name : List Char} (hname : Word name)
    (h : EndsBefore (.part (.pseudo double name)) rest) :
    ∃ c more, (Part.pseudo double name).text ++ rest = c :: more ∧
      next c more = .ok (.part (.pseudo double name), rest) := by
  obtain ⟨more, htext, hnext⟩ := exists_next_of_pseudo double hname rest
  refine ⟨':', more, htext, ?_⟩
  have hread := word_append_of_not_startsWord hname.letters (h.word rfl)
  rw [hnext, readPseudoName, name_eq_ok_of_word hread hname.ne_nil]
  split
  next heq => cases heq
  next heq =>
    cases heq
    exact absurd rfl (h.arguments _ _ rfl)
  next heq =>
    cases heq
    rfl

theorem next_call_append {double : Bool} {name : List Char} (hname : Word name) (rest : List Char) :
    ∃ c more, (Lexeme.call double name).text ++ rest = c :: more ∧
      next c more = .ok (.call double name, rest) := by
  obtain ⟨more, htext, hnext⟩ := exists_next_of_pseudo double hname ('(' :: rest)
  refine ⟨':', more, by rw [← htext]; simp [Lexeme.text], ?_⟩
  have hread : word 0 (name ++ '(' :: rest) = .ok (name, '(' :: rest) := by
    apply word_append_of_not_startsWord hname.letters
    intro c tail heq
    cases heq
    exact not_startsWord (by decide) (by decide) (by decide) _
  rw [hnext, readPseudoName, name_eq_ok_of_word hread hname.ne_nil]
  rfl

/-- A part is read again before any rest that it ends before. -/
theorem next_part_append {piece : Part} (hwell : piece.WellFormed) (h : EndsBefore (.part piece) rest) :
    ∃ c more, piece.text ++ rest = c :: more ∧ next c more = .ok (.part piece, rest) := by
  cases piece with
  | descendant => exact hwell.elim
  | combinator sign =>
    cases sign with
    | child =>
      refine ⟨'>', rest, rfl, ?_⟩
      show readChild rest = _
      unfold readChild
      split
      next tail => exact absurd ⟨tail, rfl⟩ (h.sign rfl)
      · rfl
    | adjacent | sibling | deep => exact ⟨_, _, rfl, rfl⟩
  | comment tail =>
    refine ⟨'/', '*' :: (tail ++ rest), rfl, ?_⟩
    show readComment ('*' :: (tail ++ rest)) = _
    simp [readComment, commentTail_append_of_closesComment hwell]
  | className name =>
    refine ⟨'.', name ++ rest, rfl, ?_⟩
    show readClass (name ++ rest) = _
    have hread := word_append_of_not_startsWord hwell.letters (h.word rfl)
    rw [readClass, name_eq_ok_of_word hread hwell.ne_nil]
    rfl
  | id name =>
    refine ⟨'#', name ++ rest, rfl, ?_⟩
    show readHash (name ++ rest) = _
    have hread := word_append_of_not_startsWord hwell.letters (h.word rfl)
    unfold readHash
    split
    next hbrace =>
      obtain ⟨c, letters, rfl⟩ := List.exists_cons_of_ne_nil hwell.ne_nil
      exact absurd (List.cons.inj hbrace).1 (Letters.head_ne hwell.letters).1
    · rw [name_eq_ok_of_word hread hwell.ne_nil]
      rfl
  | attr body =>
    refine ⟨'[', body ++ ']' :: rest, by simp [Part.text], ?_⟩
    show readAttribute (body ++ ']' :: rest) = _
    simp [readAttribute, attributeBody_append_of_content hwell.1, hwell.2]
  | nesting | universal => exact ⟨_, _, rfl, rfl⟩
  | string quote tail =>
    have hread := quotedTail_append_of_quotedTail (ne_backslash_of_isQuote hwell.1) hwell.2 rest
    have hspace : ¬isSpace quote := by
      rcases isQuote_iff.1 hwell.1 with rfl | rfl
      all_goals decide
    refine ⟨quote, tail ++ rest, rfl, ?_⟩
    unfold next
    rw [if_neg hspace, if_pos hwell.1, readString, hread]
  | tag name =>
    obtain ⟨c, letters, rfl⟩ := List.exists_cons_of_ne_nil hwell.ne_nil
    refine ⟨c, letters ++ rest, rfl, ?_⟩
    have hread := word_append_of_not_startsWord hwell.letters (h.word rfl)
    rw [List.cons_append] at hread
    rw [next_of_startsWord (startsWord_of_letters hwell.letters), readTag, hread]
    rfl
  | pseudo double name => exact next_pseudo_append hwell h

/-- A lexeme is read again before any rest that it ends before. -/
theorem next_append (hwell : lexeme.WellFormed) (h : EndsBefore lexeme rest) :
    ∃ c more, lexeme.text ++ rest = c :: more ∧ next c more = .ok (lexeme, rest) := by
  cases lexeme with
  | blank c => exact ⟨c, rest, rfl, next_of_isSpace hwell rest⟩
  | comma | close => exact ⟨_, _, rfl, rfl⟩
  | part piece => exact next_part_append hwell h
  | call double name => exact next_call_append hwell rest

end EndsBefore

/-! ## All lexemes -/

/-- Each of the lexemes ends before the ones after it. -/
def Separate : List Lexeme → Prop
  | [] => True
  | lexeme :: rest => EndsBefore lexeme (written Lexeme.text rest) ∧ Separate rest

theorem lexemes_written {pieces : List Lexeme} (hwell : ∀ lexeme ∈ pieces, lexeme.WellFormed)
    (h : Separate pieces) : lexemes (written Lexeme.text pieces) = ⟨pieces, none⟩ := by
  induction pieces with
  | nil => exact lexemes_nil
  | cons lexeme rest ih =>
    obtain ⟨hlexeme, hrest⟩ := List.forall_mem_cons.1 hwell
    obtain ⟨c, more, htext, hnext⟩ := next_append hlexeme h.1
    rw [written_cons, htext, lexemes_cons_of_next hnext, ih hrest h.2]
    rfl

theorem separate_of_lexemes {text : List Char} {pieces : List Lexeme}
    (h : lexemes text = ⟨pieces, none⟩) : Separate pieces := by
  induction pieces generalizing text with
  | nil => trivial
  | cons lexeme others ih =>
    obtain ⟨c, more, rest, rfl, hnext, hrest⟩ := exists_next_of_lexemes h
    refine ⟨?_, ih hrest⟩
    rw [written_of_lexemes hrest]
    exact endsBefore_of_next hnext

/-- Lexemes are those of a text just when it is what they are written as, and each ends before the next. -/
theorem lexemes_eq_ok_iff {text : List Char} {pieces : List Lexeme} :
    lexemes text = ⟨pieces, none⟩ ↔
      written Lexeme.text pieces = text ∧ (∀ lexeme ∈ pieces, lexeme.WellFormed) ∧ Separate pieces := by
  constructor
  · intro h
    have hsound := lexemes_sound (show (lexemes text).trouble = none by rw [h])
    rw [h] at hsound
    exact ⟨hsound.1, hsound.2, separate_of_lexemes h⟩
  · intro h
    rcases h with ⟨rfl, hwell, hseparate⟩
    exact lexemes_written hwell hseparate

/-! ## Lexemes next to each other -/

/-- The word that `left` ends in does not go on in `right`. -/
def Lexeme.KeepsWord (left right : Lexeme) : Prop :=
  left.endsInWord → ∀ name, right ≠ .part (.tag name)

/-- The two lexemes are read apart from each other. -/
def Lexeme.Apart (left right : Lexeme) : Prop :=
  left.KeepsWord right ∧ (left = .part (.combinator .child) → ∀ sign, right ≠ .part (.combinator sign))

/-- The lexeme starts with a character that says what it can be. -/
structure StartsWith (lexeme : Lexeme) (c : Char) (more : List Char) : Prop where
  text_eq : lexeme.text = c :: more
  ne_paren : c ≠ '('
  sign : c = '>' → ∃ sign, lexeme = .part (.combinator sign)
  word : (∀ name, lexeme ≠ .part (.tag name)) → ∀ rest, ¬StartsWord c (more ++ rest)

theorem startsWith_of_mark {lexeme : Lexeme} {c : Char} {more : List Char} (htext : lexeme.text = c :: more)
    (hword : isWordCharacter c = false) (hmark : c ≠ '(' ∧ c ≠ '>' ∧ c ≠ '\\' ∧ c ≠ '#') :
    StartsWith lexeme c more where
  text_eq := htext
  ne_paren := hmark.1
  sign heq := absurd heq hmark.2.1
  word _ _ := not_startsWord hword hmark.2.2.1 hmark.2.2.2 _

theorem exists_startsWith_part {piece : Part} (h : piece.WellFormed) :
    ∃ c more, StartsWith (.part piece) c more := by
  cases piece with
  | descendant => exact h.elim
  | combinator sign =>
    cases sign
    all_goals exact ⟨_, _, rfl, by decide, fun _ => ⟨_, rfl⟩, fun _ _ =>
      not_startsWord (by decide) (by decide) (by decide) _⟩
  | comment | className | attr | nesting | universal =>
    exact ⟨_, _, startsWith_of_mark rfl (by decide) (by decide)⟩
  | pseudo double name =>
    cases double
    all_goals exact ⟨':', _, startsWith_of_mark rfl (by decide) (by decide)⟩
  | string quote tail =>
    rcases isQuote_iff.1 h.1 with rfl | rfl
    all_goals exact ⟨_, _, startsWith_of_mark rfl (by decide) (by decide)⟩
  | id name =>
    -- the sign of an id starts a word only before a brace
    obtain ⟨c, letters, rfl⟩ := List.exists_cons_of_ne_nil h.ne_nil
    refine ⟨'#', c :: letters, rfl, by decide, fun heq => absurd heq (by decide), fun _ rest hstarts => ?_⟩
    have hword : isWordCharacter '#' = false := by decide
    have hbrace := (Letters.head_ne h.letters).1
    simp [StartsWord, hword, hbrace] at hstarts
  | tag name =>
    obtain ⟨c, letters, rfl⟩ := List.exists_cons_of_ne_nil h.ne_nil
    have hstarts : StartsWord c (letters ++ []) := startsWord_of_letters h.letters
    refine ⟨c, letters, rfl, fun heq => ?_, fun heq => ?_, fun hnot => absurd rfl (hnot _)⟩
    · subst heq
      exact not_startsWord (by decide) (by decide) (by decide) _ hstarts
    · subst heq
      exact absurd hstarts (not_startsWord (by decide) (by decide) (by decide) _)

theorem exists_startsWith {lexeme : Lexeme} (h : lexeme.WellFormed) : ∃ c more, StartsWith lexeme c more := by
  cases lexeme with
  | blank c =>
    simp only [Lexeme.WellFormed, isSpace, Bool.or_eq_true, decide_eq_true_eq] at h
    rcases h with (((rfl | rfl) | rfl) | rfl) | rfl
    all_goals exact ⟨_, _, startsWith_of_mark rfl (by decide) (by decide)⟩
  | comma | close => exact ⟨_, _, startsWith_of_mark rfl (by decide) (by decide)⟩
  | call double name =>
    cases double
    all_goals exact ⟨':', _, startsWith_of_mark rfl (by decide) (by decide)⟩
  | part piece => exact exists_startsWith_part h

/-- Before well-formed lexemes, the first of them decides. -/
theorem endsBefore_written {lexeme : Lexeme} {rest : List Lexeme} (hwell : ∀ next ∈ rest, next.WellFormed)
    (h : ∀ next ∈ rest.head?, lexeme.Apart next) : EndsBefore lexeme (written Lexeme.text rest) := by
  cases rest with
  | nil => exact ⟨by simp, by simp, by simp⟩
  | cons next rest =>
    obtain ⟨hkeeps, hsigns⟩ := h next rfl
    obtain ⟨c, more, htext, hparen, hsign, hword⟩ := exists_startsWith (hwell next List.mem_cons_self)
    rw [written_cons, htext, List.cons_append]
    refine ⟨fun hends d tail heq => ?_, fun _ _ _ hhead => ?_, fun heq hprefix => ?_⟩
    · cases heq
      exact hword (hkeeps hends) (written Lexeme.text rest)
    · exact hparen (Option.some.inj hhead)
    · obtain ⟨sign, hnext⟩ := hsign (List.cons_prefix_cons.1 hprefix).1.symm
      exact hsigns heq sign hnext

theorem separate_of_isChain {pieces : List Lexeme} (hwell : ∀ lexeme ∈ pieces, lexeme.WellFormed)
    (h : pieces.IsChain Lexeme.Apart) : Separate pieces := by
  induction pieces with
  | nil => trivial
  | cons lexeme rest ih =>
    have hrest := (List.forall_mem_cons.1 hwell).2
    obtain ⟨hnext, hchain⟩ := List.isChain_cons.1 h
    exact ⟨endsBefore_written hrest hnext, ih hrest hchain⟩

/-- In what was read, no word is cut in two. -/
theorem isChain_of_separate {pieces : List Lexeme} (hwell : ∀ lexeme ∈ pieces, lexeme.WellFormed)
    (h : Separate pieces) : pieces.IsChain Lexeme.KeepsWord := by
  induction pieces with
  | nil => exact .nil
  | cons lexeme rest ih =>
    have hrest := (List.forall_mem_cons.1 hwell).2
    refine List.isChain_cons.2 ⟨fun next hnext hends name htag => ?_, ih hrest h.2⟩
    obtain ⟨tail, rfl⟩ := List.head?_eq_some_iff.1 hnext
    subst htag
    have hword : Word name := hrest _ List.mem_cons_self
    obtain ⟨c, letters, rfl⟩ := List.exists_cons_of_ne_nil hword.ne_nil
    exact h.1.word hends c _ rfl (startsWord_of_letters hword.letters)

/-! ## Before a comma -/

/-- A comma goes with nothing before it. -/
theorem EndsBefore.append_comma {lexeme : Lexeme} {rest : List Char} (h : EndsBefore lexeme rest)
    (more : List Char) : EndsBefore lexeme (rest ++ ',' :: more) := by
  cases rest with
  | nil =>
    refine ⟨fun _ c tail heq => ?_, by simp, by simp⟩
    cases heq
    exact not_startsWord (by decide) (by decide) (by decide) _
  | cons d rest =>
    refine ⟨fun hends c tail heq => ?_, h.arguments, fun heq hsigns => ?_⟩
    · cases heq
      have hnot := h.word hends d rest rfl
      cases rest with
      | nil => simpa [StartsWord] using hnot
      | cons e rest => exact hnot
    · apply h.sign heq
      cases rest with
      | nil => simp at hsigns
      | cons e rest => simpa using hsigns

theorem Separate.append_comma {front back : List Lexeme} (hfront : Separate front)
    (hback : Separate back) : Separate (front ++ .comma :: back) := by
  induction front with
  | nil => exact ⟨endsBefore_of_ne rfl (by simp) _, hback⟩
  | cons lexeme rest ih =>
    rw [List.cons_append, Separate, written_append]
    exact ⟨hfront.1.append_comma (written Lexeme.text back), ih hfront.2⟩

/-- The lexemes of two texts with a comma between them. -/
theorem lexemes_append_comma {left right : List Char} {front back : List Lexeme}
    (hleft : lexemes left = ⟨front, none⟩) (hright : lexemes right = ⟨back, none⟩) :
    lexemes (left ++ ',' :: right) = ⟨front ++ .comma :: back, none⟩ := by
  obtain ⟨rfl, hfrontWell, hfront⟩ := lexemes_eq_ok_iff.1 hleft
  obtain ⟨rfl, hbackWell, hback⟩ := lexemes_eq_ok_iff.1 hright
  refine lexemes_eq_ok_iff.2 ⟨?_, ?_, hfront.append_comma hback⟩
  · rw [written_append]
    rfl
  · exact List.forall_mem_append.2 ⟨hfrontWell, List.forall_mem_cons.2 ⟨trivial, hbackWell⟩⟩

end SelectorLint.Selector
