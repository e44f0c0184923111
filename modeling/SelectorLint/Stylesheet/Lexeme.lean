import SelectorLint.Stylesheet.Dialect
import SelectorLint.Stylesheet.Fault
import SelectorLint.Text.Blank
import SelectorLint.Text.Reading

/-!
# Lexemes of stylesheets

A stylesheet is cut into lexemes (`lexemes`), of which `SelectorLint.Stylesheet.Scan` makes blocks and rules. The
only thing that a lexeme depends on besides its text is the number of brackets that are open before it:
inside brackets, braces, semicolons and double slashes are plain characters.

`next` reads one lexeme. Comments start with a slash (`readSlash`), interpolations with a hash (`readHash`), quoted
texts with a quote (`readQuoted`), and all else is one character (`single`). In the text of a selector a line
comment is masked by one that CSS has too (`Lexeme.masked`).
-/

namespace SelectorLint.Stylesheet

open Text

/-- A piece of a stylesheet. -/
inductive Lexeme where
  | blank (c : Char)
  /-- A comment, with what follows its `/*`. -/
  | comment (tail : List Char)
  /-- A comment up to the end of the line, with what follows its `//`. -/
  | lineComment (body : List Char)
  /-- A quoted text, with what follows its opening quote. -/
  | quoted (quote : Char) (tail : List Char)
  /-- An interpolation, with what follows its `#{`. -/
  | interpolation (tail : List Char)
  | openBracket (c : Char)
  | closeBracket (c : Char)
  | openBrace
  | closeBrace
  | semicolon
  | plain (c : Char)
  deriving DecidableEq, Repr

namespace Lexeme

/-- How a lexeme is written. -/
def text : Lexeme → List Char
  | blank c => [c]
  | comment tail => '/' :: '*' :: tail
  | lineComment body => '/' :: '/' :: body
  | quoted quote tail => quote :: tail
  | interpolation tail => '#' :: '{' :: tail
  | openBracket c => [c]
  | closeBracket c => [c]
  | openBrace => ['{']
  | closeBrace => ['}']
  | semicolon => [';']
  | plain c => [c]

/-- How many brackets are open after a lexeme. A bracket that closes nothing has no effect. -/
def bracketsAfter (brackets : Nat) : Lexeme → Nat
  | openBracket _ => brackets + 1
  | closeBracket _ => brackets - 1
  | _ => brackets

/-- A statement can begin with this lexeme. -/
def isSignificant : Lexeme → Bool
  | blank _ | comment _ | lineComment _ | closeBracket _ => false
  | _ => true

/-- The text of a lexeme with a comment of the same length in place of a line comment, or blanks if that
is too short for a comment. -/
def masked : Lexeme → List Char
  | lineComment body =>
    let length := byteLength (lineComment body).text
    if 4 ≤ length then '/' :: '*' :: List.replicate (length - 4) ' ' ++ ['*', '/']
    else List.replicate length ' '
  | lexeme => lexeme.text

end Lexeme

/-! ## Reading one lexeme -/

/-- What follows a `#{`, up to and with the brace that closes it, and the rest. There are `inner` more
braces open inside, and braces in quoted texts do not count. `before` counts the bytes so far, those of
`#{` included. -/
def interpolationTail (before inner : Nat) (text : List Char) :
    Except (Trouble Fault) (List Char × List Char) :=
  match text with
  | [] => .error ⟨0, .unclosedInterpolation⟩
  | '{' :: rest => (interpolationTail (before + 1) (inner + 1) rest).map (prepend ['{'])
  | '}' :: rest =>
    match inner with
    | 0 => .ok (['}'], rest)
    | outer + 1 => (interpolationTail (before + 1) outer rest).map (prepend ['}'])
  | c :: rest =>
    if isQuote c then
      match _h : quotedTail false c rest with
      | none => .error ⟨before, .unclosedString⟩
      | some (tail, rest') =>
        (interpolationTail (before + c.utf8Size + byteLength tail) inner rest').map
          (prepend (c :: tail))
    else (interpolationTail (before + c.utf8Size) inner rest).map (prepend [c])
termination_by text.length
decreasing_by
  · simp
  · simp
  · have := length_le_of_append_eq (quotedTail_append ‹_›)
    simp only [List.length_cons]
    omega
  · simp

theorem interpolationTail_append {before inner : Nat} {text piece rest : List Char}
    (h : interpolationTail before inner text = .ok (piece, rest)) : piece ++ rest = text := by
  fun_induction interpolationTail before inner text generalizing piece rest with
  | case1 | case5 => cases h
  | case3 =>
    cases h
    rfl
  | case2 _ _ _ ih | case4 _ _ _ ih | case7 _ _ _ _ _ _ _ ih =>
    obtain ⟨⟨tail, rest'⟩, htail, heq⟩ := map_eq_ok_iff.1 h
    simp only [prepend, Prod.mk.injEq] at heq
    obtain ⟨rfl, rfl⟩ := heq
    simp [ih htail]
  | case6 _ _ _ _ _ _ _ _ _ hquoted ih =>
    obtain ⟨⟨tail, rest'⟩, htail, heq⟩ := map_eq_ok_iff.1 h
    simp only [prepend, Prod.mk.injEq] at heq
    obtain ⟨rfl, rfl⟩ := heq
    simp [ih htail, ← quotedTail_append hquoted]

/-- A lexeme that was read, and the text after it. -/
abbrev Reading := Except (Trouble Fault) (Lexeme × List Char)

/-- What starts with a slash: a comment of one of the two sorts, or just the slash. -/
def readSlash (dialect : Dialect) (brackets : Nat) (rest : List Char) : Reading :=
  match rest with
  | '*' :: inner =>
    match commentTail inner with
    | some (tail, rest') => .ok (.comment tail, rest')
    | none => .error ⟨0, .unclosedComment⟩
  | '/' :: inner =>
    if brackets = 0 && dialect.hasLineComments then
      .ok (.lineComment (inner.takeWhile (· ≠ '\n')), inner.dropWhile (· ≠ '\n'))
    else .ok (.plain '/', rest)
  | _ => .ok (.plain '/', rest)

/-- What starts with `#`: an interpolation, or just the sign. -/
def readHash (rest : List Char) : Reading :=
  match rest with
  | '{' :: inner =>
    (interpolationTail 2 0 inner).map fun (tail, rest') => (.interpolation tail, rest')
  | _ => .ok (.plain '#', rest)

/-- The quoted text that starts with `quote`. It stays on its line. -/
def readQuoted (quote : Char) (rest : List Char) : Reading :=
  match quotedTail false quote rest with
  | some (tail, rest') => .ok (.quoted quote tail, rest')
  | none => .error ⟨0, .unclosedString⟩

/-- The lexeme that a single character is, after `brackets` that are still open. -/
def single (brackets : Nat) (c : Char) : Lexeme :=
  match c with
  | '(' | '[' => .openBracket c
  | ')' | ']' => .closeBracket c
  | '{' => if brackets = 0 then .openBrace else .plain c
  | '}' => if brackets = 0 then .closeBrace else .plain c
  | ';' => if brackets = 0 then .semicolon else .plain c
  | c => if isBlank c then .blank c else .plain c

/-- The first lexeme of the text `c :: rest`, and what comes after it. -/
def next (dialect : Dialect) (brackets : Nat) (c : Char) (rest : List Char) : Reading :=
  if c = '/' then readSlash dialect brackets rest
  else if c = '#' then readHash rest
  else if isQuote c then readQuoted c rest
  else .ok (single brackets c, rest)

/-! ## Nothing is lost -/

theorem text_single (brackets : Nat) (c : Char) : (single brackets c).text = [c] := by
  unfold single
  repeat' split
  all_goals rfl

theorem text_ne_nil (lexeme : Lexeme) : lexeme.text ≠ [] := by
  cases lexeme <;> simp [Lexeme.text]

section Splits

variable {rest rest' : List Char} {lexeme : Lexeme}

theorem splits_of_readSlash {dialect : Dialect} {brackets : Nat}
    (h : readSlash dialect brackets rest = .ok (lexeme, rest')) :
    Splits Lexeme.text ('/' :: rest) lexeme rest' := by
  refine ⟨text_ne_nil lexeme, ?_⟩
  unfold readSlash at h
  split at h
  · split at h
    next htail =>
      cases h
      simp [Lexeme.text, commentTail_append htail]
    · cases h
  · split at h
    · cases h
      simp [Lexeme.text, List.takeWhile_append_dropWhile]
    · cases h
      rfl
  · cases h
    rfl

theorem splits_of_readHash (h : readHash rest = .ok (lexeme, rest')) :
    Splits Lexeme.text ('#' :: rest) lexeme rest' := by
  refine ⟨text_ne_nil lexeme, ?_⟩
  unfold readHash at h
  split at h
  · obtain ⟨⟨tail, after⟩, htail, heq⟩ := map_eq_ok_iff.1 h
    cases heq
    simp [Lexeme.text, interpolationTail_append htail]
  · cases h
    rfl

theorem splits_of_readQuoted {quote : Char} (h : readQuoted quote rest = .ok (lexeme, rest')) :
    Splits Lexeme.text (quote :: rest) lexeme rest' := by
  refine ⟨text_ne_nil lexeme, ?_⟩
  unfold readQuoted at h
  split at h
  next htail =>
    cases h
    simp [Lexeme.text, quotedTail_append htail]
  · cases h

/-- A lexeme that was read and the rest make up the text. -/
theorem splits_of_next {dialect : Dialect} {brackets : Nat} {c : Char}
    (h : next dialect brackets c rest = .ok (lexeme, rest')) : Splits Lexeme.text (c :: rest) lexeme rest' := by
  unfold next at h
  split at h
  next hc =>
    subst hc
    exact splits_of_readSlash h
  split at h
  next hc =>
    subst hc
    exact splits_of_readHash h
  split at h
  · exact splits_of_readQuoted h
  · cases h
    exact ⟨text_ne_nil _, by simp [text_single]⟩

end Splits

/-! ## All lexemes -/

/-- The lexemes of a text that follows after `brackets` open ones, up to its end or up to the first
trouble. -/
def lexemesFrom (dialect : Dialect) (brackets : Nat) (text : List Char) : Lexing Lexeme Fault :=
  match text with
  | [] => ⟨[], none⟩
  | c :: rest =>
    match _h : next dialect brackets c rest with
    | .error trouble => ⟨[], some trouble⟩
    | .ok (lexeme, rest') =>
      (lexemesFrom dialect (lexeme.bracketsAfter brackets) rest').cons lexeme
termination_by text.length
decreasing_by
  · exact (splits_of_next ‹_›).length_lt

/-- The lexemes of a stylesheet. -/
def lexemes (dialect : Dialect) (text : List Char) : Lexing Lexeme Fault :=
  lexemesFrom dialect 0 text

end SelectorLint.Stylesheet
