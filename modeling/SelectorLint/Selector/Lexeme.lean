import SelectorLint.Selector.Fault
import SelectorLint.Selector.Tree
import SelectorLint.Text.Blank
import SelectorLint.Text.Reading

/-!
# Lexemes of selectors

A selector is read in two steps. Here its text is cut into lexemes (`lexemes`), and
`SelectorLint.Selector.Assembly` puts them together into a tree. Cutting is a matter of the characters alone: what
a lexeme is does not depend on the lexemes before it, and each lexeme keeps all of its text, so that the texts of
the lexemes follow each other in the selector without a gap (`splits_of_next`).

`next` tells by the first character which reader has to go on: `readClass`, `readHash`, `readAttribute`,
`readPseudo`, `readString`, `readComment`, `readChild` or `readTag`. Names are read by `word`, with their escapes
and interpolations, and what is in brackets by `attributeBody`.
-/

namespace SelectorLint.Selector

open Text

/-- The combinators that are written as signs. -/
inductive Sign where
  | child | adjacent | sibling | deep
  deriving DecidableEq, Repr

/-- How a sign is written. -/
def Sign.text : Sign → List Char
  | child => ['>']
  | adjacent => ['+']
  | sibling => ['~']
  | deep => ['>', '>', '>']

/-- The first character of a sign. -/
def Sign.mark : Sign → Char
  | child | deep => '>'
  | adjacent => '+'
  | sibling => '~'

/-- What a node of the tree is made from. -/
inductive Part where
  /-- White space between two compounds, of which this is the first character. -/
  | descendant (blank : Char)
  | combinator (sign : Sign)
  /-- A comment, with what follows its `/*`. -/
  | comment (tail : List Char)
  | className (name : List Char)
  | id (name : List Char)
  /-- An attribute selector, with what stands between its brackets. -/
  | attr (body : List Char)
  | nesting
  | universal
  /-- A quoted text, with what follows its opening quote. -/
  | string (quote : Char) (tail : List Char)
  | tag (word : List Char)
  /-- A pseudo-class or, with two colons, a pseudo-element. -/
  | pseudo (double : Bool) (name : List Char)
  deriving DecidableEq, Repr

namespace Part

/-- How a part is written. -/
def text : Part → List Char
  | descendant blank => [blank]
  | combinator sign => sign.text
  | comment tail => '/' :: '*' :: tail
  | className name => '.' :: name
  | id name => '#' :: name
  | attr body => '[' :: body ++ [']']
  | nesting => ['&']
  | universal => ['*']
  | string quote tail => quote :: tail
  | tag word => word
  | pseudo double name => (if double then [':', ':'] else [':']) ++ name

/-- The kind of node that a part becomes. -/
def kind : Part → Kind
  | descendant _ | combinator _ => .combinator
  | comment _ => .comment
  | className _ => .className
  | id _ => .id
  | attr _ => .attr
  | nesting => .nesting
  | universal => .universal
  | string _ _ => .string
  | tag _ => .tag
  | pseudo _ _ => .pseudo

/-- The value of the node that a part becomes. -/
def value : Part → String
  | descendant _ => " "
  | className name => String.ofList name
  | id name => String.ofList name
  | attr body => String.ofList (trim body)
  | part => String.ofList part.text

end Part

/-- A piece of the text of a selector. -/
inductive Lexeme where
  | blank (c : Char)
  | comma
  | part (part : Part)
  /-- A pseudo-class right before the parenthesis that opens its arguments. -/
  | call (double : Bool) (name : List Char)
  | close
  deriving DecidableEq, Repr

/-- How a lexeme is written. -/
def Lexeme.text : Lexeme → List Char
  | blank c => [c]
  | comma => [',']
  | .part piece => piece.text
  | call double name => (Part.pseudo double name).text ++ ['(']
  | close => [')']

/-! ## Characters and words -/

/-- The characters that separate compounds: space, tab, line feed, carriage return, form feed. -/
def isSpace (c : Char) : Bool := c = ' ' || c = '\t' || c = '\n' || c = '\r' || c = '\x0c'

/-- The characters of a word: letters, digits, `-`, `_`, `%` and all beyond ASCII. -/
def isWordCharacter (c : Char) : Bool :=
  c.isAlphanum || c = '-' || c = '_' || c = '%' || 128 ≤ c.toNat

/-- What follows a `#{`, up to and with the brace that closes it, and the rest. There are `inner` more
braces open inside. -/
def interpolationTail (inner : Nat) : List Char → Option (List Char × List Char)
  | [] => none
  | '{' :: rest => (interpolationTail (inner + 1) rest).map (prepend ['{'])
  | '}' :: rest =>
    match inner with
    | 0 => some (['}'], rest)
    | outer + 1 => (interpolationTail outer rest).map (prepend ['}'])
  | c :: rest => (interpolationTail inner rest).map (prepend [c])

theorem interpolationTail_append {inner : Nat} {text piece rest : List Char}
    (h : interpolationTail inner text = some (piece, rest)) : piece ++ rest = text := by
  fun_induction interpolationTail inner text generalizing piece rest with
  | case1 => simp at h
  | case3 =>
    cases h
    rfl
  | case2 _ _ ih | case4 _ _ ih | case5 _ _ _ _ _ ih =>
    obtain ⟨⟨body, rest'⟩, hbody, heq⟩ := Option.map_eq_some_iff.1 h
    simp only [prepend, Prod.mk.injEq] at heq
    obtain ⟨rfl, rfl⟩ := heq
    simp [ih hbody]

/-- The longest word that the text starts with, and the rest. A word is made of word characters,
backslashes with the character after each, and interpolations; `before` counts its bytes so far. -/
def word (before : Nat) (text : List Char) : Except (Trouble Fault) (List Char × List Char) :=
  match text with
  | [] => .ok ([], [])
  | ['\\'] => .error ⟨0, .unfinishedEscape⟩
  | '\\' :: c :: rest => (word (before + 1 + c.utf8Size) rest).map (prepend ['\\', c])
  | '#' :: '{' :: rest =>
    match h : interpolationTail 0 rest with
    | none => .error ⟨before, .unclosedInterpolation⟩
    | some (tail, rest') =>
      (word (before + 2 + byteLength tail) rest').map (prepend ('#' :: '{' :: tail))
  | c :: rest =>
    if isWordCharacter c then (word (before + c.utf8Size) rest).map (prepend [c])
    else .ok ([], c :: rest)
termination_by text.length
decreasing_by
  · simp only [List.length_cons]
    omega
  · have := length_le_of_append_eq (interpolationTail_append h)
    simp only [List.length_cons]
    omega
  · simp

/-- A word that was read and the rest make up the text. -/
theorem word_append {before : Nat} {text piece rest : List Char}
    (h : word before text = .ok (piece, rest)) : piece ++ rest = text := by
  fun_induction word before text generalizing piece rest with
  | case1 | case7 =>
    cases h
    rfl
  | case2 | case4 => cases h
  | case3 _ _ _ ih | case6 _ _ _ _ _ _ _ ih =>
    obtain ⟨⟨tail, rest'⟩, htail, heq⟩ := map_eq_ok_iff.1 h
    simp only [prepend, Prod.mk.injEq] at heq
    obtain ⟨rfl, rfl⟩ := heq
    simp [ih htail]
  | case5 _ _ _ _ hinner ih =>
    obtain ⟨⟨tail, rest'⟩, htail, heq⟩ := map_eq_ok_iff.1 h
    simp only [prepend, Prod.mk.injEq] at heq
    obtain ⟨rfl, rfl⟩ := heq
    simp [ih htail, ← interpolationTail_append hinner]

/-- What goes along with the character `c` in brackets: the rest of a quoted text after a quote, and
nothing after any other character. -/
def alongInBrackets (c : Char) (rest : List Char) : Option (List Char × List Char) :=
  if isQuote c then quotedTail true c rest else some ([], rest)

theorem alongInBrackets_append {c : Char} {text piece rest : List Char}
    (h : alongInBrackets c text = some (piece, rest)) : piece ++ rest = text := by
  unfold alongInBrackets at h
  split at h
  · exact quotedTail_append h
  · cases h
    rfl

/-- What stands in brackets, and the rest after the closing bracket. Brackets in quoted texts do not
count; `before` counts the bytes so far, the opening bracket included. -/
def attributeBody (before : Nat) (text : List Char) :
    Except (Trouble Fault) (List Char × List Char) :=
  match text with
  | [] => .error ⟨0, .unclosedAttribute⟩
  | ']' :: rest => .ok ([], rest)
  | c :: rest =>
    match _h : alongInBrackets c rest with
    | none => .error ⟨before, .unclosedString⟩
    | some (tail, rest') =>
      (attributeBody (before + c.utf8Size + byteLength tail) rest').map (prepend (c :: tail))
termination_by text.length
decreasing_by
  · have := length_le_of_append_eq (alongInBrackets_append ‹_›)
    simp only [List.length_cons]
    omega

theorem attributeBody_append {before : Nat} {text body rest : List Char}
    (h : attributeBody before text = .ok (body, rest)) : body ++ ']' :: rest = text := by
  fun_induction attributeBody before text generalizing body rest with
  | case1 | case3 => cases h
  | case2 =>
    cases h
    rfl
  | case4 _ _ _ _ _ _ halong ih =>
    obtain ⟨⟨tail, rest'⟩, htail, heq⟩ := map_eq_ok_iff.1 h
    simp only [prepend, Prod.mk.injEq] at heq
    obtain ⟨rfl, rfl⟩ := heq
    simp [ih htail, ← alongInBrackets_append halong]

/-! ## One lexeme -/

/-- A lexeme that was read, and the text after it. -/
abbrev Reading := Except (Trouble Fault) (Lexeme × List Char)

/-- A word that has to be there: `missing` is the fault if it is not. The word stands `lead` bytes past
the start of the lexeme. -/
def name (lead : Nat) (missing : Fault) (text : List Char) :
    Except (Trouble Fault) (List Char × List Char) :=
  match word 0 text with
  | .error trouble => .error (trouble.after lead)
  | .ok ([], _) => .error ⟨0, missing⟩
  | .ok result => .ok result

/-- The comment that starts with `/`. -/
def readComment (rest : List Char) : Reading :=
  match rest with
  | '*' :: inner =>
    match commentTail inner with
    | some (tail, rest') => .ok (.part (.comment tail), rest')
    | none => .error ⟨0, .unclosedComment⟩
  | _ => .error ⟨0, .unexpectedCharacter '/'⟩

/-- The combinator that starts with `>`. -/
def readChild (rest : List Char) : Reading :=
  match rest with
  | '>' :: '>' :: rest' => .ok (.part (.combinator .deep), rest')
  | _ => .ok (.part (.combinator .child), rest)

/-- The class that starts with a dot. -/
def readClass (rest : List Char) : Reading :=
  (name 1 .expectedClassName rest).map fun (name, rest') => (.part (.className name), rest')

/-- The word that the text starts with. -/
def readTag (text : List Char) : Reading :=
  (word 0 text).map fun (word, rest') => (.part (.tag word), rest')

/-- The id, or the word with an interpolation in front, that starts with `#`. -/
def readHash (rest : List Char) : Reading :=
  match rest with
  | '{' :: _ => readTag ('#' :: rest)
  | _ => (name 1 .expectedId rest).map fun (name, rest') => (.part (.id name), rest')

/-- The attribute selector that starts with a bracket. -/
def readAttribute (rest : List Char) : Reading :=
  match attributeBody 1 rest with
  | .error trouble => .error trouble
  | .ok (body, rest') =>
    if trim body = [] then .error ⟨0, .emptyAttribute⟩ else .ok (.part (.attr body), rest')

/-- The quoted text that starts with `quote`. -/
def readString (quote : Char) (rest : List Char) : Reading :=
  match quotedTail true quote rest with
  | some (tail, rest') => .ok (.part (.string quote tail), rest')
  | none => .error ⟨0, .unclosedString⟩

/-- A pseudo-class after its colons, with the parenthesis that follows it, if any. -/
def readPseudoName (double : Bool) (rest : List Char) : Reading :=
  match name (if double then 2 else 1) .expectedPseudoName rest with
  | .error trouble => .error trouble
  | .ok (name, '(' :: rest') => .ok (.call double name, rest')
  | .ok (name, rest') => .ok (.part (.pseudo double name), rest')

/-- The pseudo-class or pseudo-element that starts with a colon. -/
def readPseudo (rest : List Char) : Reading :=
  match rest with
  | ':' :: rest' => readPseudoName true rest'
  | _ => readPseudoName false rest

/-- The first lexeme of the text `c :: rest`, and what comes after it. -/
def next (c : Char) (rest : List Char) : Reading :=
  if isSpace c then .ok (.blank c, rest)
  else if isQuote c then readString c rest
  else if isWordCharacter c || c = '\\' then readTag (c :: rest)
  else
    match c with
    | ',' => .ok (.comma, rest)
    | ')' => .ok (.close, rest)
    | '>' => readChild rest
    | '+' => .ok (.part (.combinator .adjacent), rest)
    | '~' => .ok (.part (.combinator .sibling), rest)
    | '/' => readComment rest
    | '.' => readClass rest
    | '#' => readHash rest
    | '[' => readAttribute rest
    | ':' => readPseudo rest
    | '&' => .ok (.part .nesting, rest)
    | '*' => .ok (.part .universal, rest)
    | c => .error ⟨0, .unexpectedCharacter c⟩

/-! ## Nothing is lost -/

theorem name_eq_ok {lead : Nat} {missing : Fault} {text piece rest : List Char}
    (h : name lead missing text = .ok (piece, rest)) :
    word 0 text = .ok (piece, rest) ∧ piece ≠ [] := by
  unfold name at h
  split at h
  · cases h
  · cases h
  next hne hword =>
    cases h
    exact ⟨hword, fun hnil => hne rest (by rw [hnil])⟩

/-- A text that starts like a word starts with a word that is not empty. -/
theorem word_ne_nil {before : Nat} {c : Char} {rest piece rest' : List Char}
    (hstart : isWordCharacter c ∨ c = '\\' ∨ c = '#' ∧ rest.head? = some '{')
    (h : word before (c :: rest) = .ok (piece, rest')) : piece ≠ [] := by
  rw [word.eq_def] at h
  split at h
  · simp_all
  · cases h
  · exact ne_nil_of_map_prepend (by simp) h
  · split at h
    · cases h
    · exact ne_nil_of_map_prepend (by simp) h
  next first tail hescape _ hinner hcons =>
    cases hcons
    split at h
    · exact ne_nil_of_map_prepend (by simp) h
    next hword =>
      exfalso
      cases rest with
      | nil => simp_all
      | cons second tail => simp_all

section Splits

variable {rest rest' : List Char} {lexeme : Lexeme}

theorem splits_of_readComment (h : readComment rest = .ok (lexeme, rest')) :
    Splits Lexeme.text ('/' :: rest) lexeme rest' := by
  unfold readComment at h
  split at h
  · split at h
    next htail =>
      cases h
      exact ⟨by simp [Lexeme.text, Part.text],
        by simp [Lexeme.text, Part.text, commentTail_append htail]⟩
    · cases h
  · cases h

theorem splits_of_readChild (h : readChild rest = .ok (lexeme, rest')) :
    Splits Lexeme.text ('>' :: rest) lexeme rest' := by
  unfold readChild at h
  split at h
  all_goals
    cases h
    exact ⟨by simp [Lexeme.text, Part.text, Sign.text], rfl⟩

theorem splits_of_readClass (h : readClass rest = .ok (lexeme, rest')) :
    Splits Lexeme.text ('.' :: rest) lexeme rest' := by
  obtain ⟨⟨piece, tail⟩, hname, heq⟩ := map_eq_ok_iff.1 h
  cases heq
  exact ⟨by simp [Lexeme.text, Part.text],
    by simp [Lexeme.text, Part.text, word_append (name_eq_ok hname).1]⟩

theorem splits_of_readTag {c : Char}
    (hstart : isWordCharacter c ∨ c = '\\' ∨ c = '#' ∧ rest.head? = some '{')
    (h : readTag (c :: rest) = .ok (lexeme, rest')) : Splits Lexeme.text (c :: rest) lexeme rest' := by
  obtain ⟨⟨piece, tail⟩, hword, heq⟩ := map_eq_ok_iff.1 h
  cases heq
  exact ⟨word_ne_nil hstart hword, word_append hword⟩

theorem splits_of_readHash (h : readHash rest = .ok (lexeme, rest')) :
    Splits Lexeme.text ('#' :: rest) lexeme rest' := by
  unfold readHash at h
  split at h
  · exact splits_of_readTag (.inr (.inr ⟨rfl, rfl⟩)) h
  · obtain ⟨⟨piece, tail⟩, hname, heq⟩ := map_eq_ok_iff.1 h
    cases heq
    exact ⟨by simp [Lexeme.text, Part.text],
      by simp [Lexeme.text, Part.text, word_append (name_eq_ok hname).1]⟩

theorem splits_of_readAttribute (h : readAttribute rest = .ok (lexeme, rest')) :
    Splits Lexeme.text ('[' :: rest) lexeme rest' := by
  unfold readAttribute at h
  split at h
  · cases h
  next hbody =>
    split at h
    · cases h
    · cases h
      exact ⟨by simp [Lexeme.text, Part.text],
        by simp [Lexeme.text, Part.text, attributeBody_append hbody]⟩

theorem splits_of_readString {quote : Char} (h : readString quote rest = .ok (lexeme, rest')) :
    Splits Lexeme.text (quote :: rest) lexeme rest' := by
  unfold readString at h
  split at h
  next htail =>
    cases h
    exact ⟨by simp [Lexeme.text, Part.text],
      by simp [Lexeme.text, Part.text, quotedTail_append htail]⟩
  · cases h

theorem splits_of_readPseudoName {double : Bool}
    (h : readPseudoName double rest = .ok (lexeme, rest')) :
    Splits Lexeme.text ((if double then [':', ':'] else [':']) ++ rest) lexeme rest' := by
  unfold readPseudoName at h
  split at h
  · cases h
  next hname =>
    cases h
    exact ⟨by simp [Lexeme.text],
      by simp [Lexeme.text, Part.text, ← word_append (name_eq_ok hname).1]⟩
  next hname =>
    cases h
    exact ⟨by simp [Lexeme.text, Part.text, (name_eq_ok hname).2],
      by simp [Lexeme.text, Part.text, word_append (name_eq_ok hname).1]⟩

theorem splits_of_readPseudo (h : readPseudo rest = .ok (lexeme, rest')) :
    Splits Lexeme.text (':' :: rest) lexeme rest' := by
  unfold readPseudo at h
  split at h
  · simpa using splits_of_readPseudoName h
  · simpa using splits_of_readPseudoName h

/-- A lexeme that was read and the rest make up the text. -/
theorem splits_of_next {c : Char} (h : next c rest = .ok (lexeme, rest')) :
    Splits Lexeme.text (c :: rest) lexeme rest' := by
  unfold next at h
  split at h
  · cases h
    exact ⟨by simp [Lexeme.text], rfl⟩
  split at h
  · exact splits_of_readString h
  split at h
  next hstart => exact splits_of_readTag (by grind) h
  split at h
  case h_3 => exact splits_of_readChild h
  case h_6 => exact splits_of_readComment h
  case h_7 => exact splits_of_readClass h
  case h_8 => exact splits_of_readHash h
  case h_9 => exact splits_of_readAttribute h
  case h_10 => exact splits_of_readPseudo h
  case h_13 => cases h
  all_goals
    cases h
    exact ⟨by simp [Lexeme.text, Part.text, Sign.text], rfl⟩

end Splits

/-! ## All lexemes -/

/-- The lexemes of a text, up to its end or up to the first trouble. -/
def lexemes (text : List Char) : Lexing Lexeme Fault :=
  match text with
  | [] => ⟨[], none⟩
  | c :: rest =>
    match _h : next c rest with
    | .error trouble => ⟨[], some trouble⟩
    | .ok (lexeme, rest') => (lexemes rest').cons lexeme
termination_by text.length
decreasing_by
  · exact (splits_of_next ‹_›).length_lt

end SelectorLint.Selector
