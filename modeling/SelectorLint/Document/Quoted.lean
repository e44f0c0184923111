import SelectorLint.Document.Bare
import SelectorLint.Text.Reading

/-!
# Quoted texts of documents

A text between double quotes has escapes (`unescape`), one between single quotes has none (`verbatim`). Between
three quotes it may have several lines; a line feed right after the opening quotes does not count, and up to two
quotes may stand right before the closing ones. Line ends are single line feeds here. `quoted?` reads all four
sorts.
-/

namespace SelectorLint.Document

open Text (prepend quotedTail)

/-- The character can stand in a comment or a quoted text. -/
def isTextChar (c : Char) : Bool := c = '\t' || (' ' ≤ c && c ≠ '\x7f')

/-- The character that a letter after a backslash stands for. -/
def escaped? (c : Char) : Option Char :=
  match c with
  | 'b' => some '\x08'
  | 't' => some '\t'
  | 'n' => some '\n'
  | 'f' => some '\x0c'
  | 'r' => some '\r'
  | '"' => some '"'
  | '\\' => some '\\'
  | _ => none

/-- The character with a number in base sixteen. -/
def scalar? (digits : List Char) : Option Char :=
  if digits.all isHexDigit && (valueOf 16 digits).isValidChar then some (Char.ofNat (valueOf 16 digits))
  else none

/-- The first character that is not a blank is a line feed. -/
def endsLine (text : List Char) : Bool :=
  (text.dropWhile fun c => c = ' ' || c = '\t').head? = some '\n'

/-- What is between double quotes, without escapes. In a text of several `lines` a backslash at the end of a
line takes away the line end and all blanks that follow; `trimming` says that this is going on. -/
def unescape (lines trimming : Bool) : List Char → Option (List Char)
  | [] => some []
  | ['\\'] => none
  | '\\' :: 'u' :: d₁ :: d₂ :: d₃ :: d₄ :: rest => do
    let c ← scalar? [d₁, d₂, d₃, d₄]
    let tail ← unescape lines false rest
    return c :: tail
  | '\\' :: 'U' :: d₁ :: d₂ :: d₃ :: d₄ :: d₅ :: d₆ :: d₇ :: d₈ :: rest => do
    let c ← scalar? [d₁, d₂, d₃, d₄, d₅, d₆, d₇, d₈]
    let tail ← unescape lines false rest
    return c :: tail
  | '\\' :: c :: rest =>
    match escaped? c with
    | some value => (unescape lines false rest).map (value :: ·)
    | none => if lines && endsLine (c :: rest) then unescape lines true (c :: rest) else none
  | c :: rest =>
    if trimming && (c = ' ' || c = '\t' || c = '\n') then unescape lines true rest
    else if isTextChar c || (lines && c = '\n') then (unescape lines false rest).map (c :: ·)
    else none

/-- What is between single quotes, if it may stand there. -/
def verbatim (lines : Bool) (text : List Char) : Option (List Char) :=
  if text.all fun c => isTextChar c || (lines && c = '\n') then some text else none

/-! ## Finding the closing quotes -/

/-- What follows an opening double quote, without the closing one, and the rest. -/
def doubleTail (text : List Char) : Option (List Char × List Char) := do
  let (piece, rest) ← quotedTail false '"' text
  let content ← unescape false false piece.dropLast
  return (content, rest)

/-- What follows an opening single quote, without the closing one, and the rest. -/
def singleTail (text : List Char) : Option (List Char × List Char) :=
  match text.dropWhile (· ≠ '\'') with
  | [] => none
  | _ :: rest => (verbatim false (text.takeWhile (· ≠ '\''))).map fun content => (content, rest)

/-- What follows three opening quotes, without the closing ones, and the rest. -/
def tripleTail (escapes : Bool) (quote : Char) : List Char → Option (List Char × List Char)
  | [] => none
  | ['\\'] => none
  | '\\' :: c :: rest =>
    if escapes then (tripleTail escapes quote rest).map (prepend ['\\', c])
    else (tripleTail escapes quote (c :: rest)).map (prepend ['\\'])
  | c :: rest =>
    if c = quote && [quote, quote].isPrefixOf rest then
      let more := ((rest.drop 2).takeWhile (· = quote)).take 2
      some (more, rest.drop (2 + more.length))
    else (tripleTail escapes quote rest).map (prepend [c])

/-- The text without a line feed at its start. -/
def dropLineFeed : List Char → List Char
  | '\n' :: rest => rest
  | text => text

/-- Reads a quoted text from its opening quotes on. -/
def quoted? : List Char → Option (String × List Char)
  | '"' :: '"' :: '"' :: text => do
    let (piece, rest) ← tripleTail true '"' (dropLineFeed text)
    let content ← unescape true false piece
    return (String.ofList content, rest)
  | '\'' :: '\'' :: '\'' :: text => do
    let (piece, rest) ← tripleTail false '\'' (dropLineFeed text)
    let content ← verbatim true piece
    return (String.ofList content, rest)
  | '"' :: text => (doubleTail text).map fun (content, rest) => (String.ofList content, rest)
  | '\'' :: text => (singleTail text).map fun (content, rest) => (String.ofList content, rest)
  | _ => none

end SelectorLint.Document
