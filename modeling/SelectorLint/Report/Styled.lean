/-!
# Styled text

Text in pieces, each of which may have a style. It can be written without styles (`Styled.toPlain`), or with the
escape sequences that a terminal understands (`Styled.toAnsi`).
-/

namespace SelectorLint.Report

/-- The colors in use. -/
inductive Color where
  | red | green | yellow
  deriving DecidableEq, Repr

/-- How a piece of text looks. -/
structure Style where
  bold : Bool
  dimmed : Bool
  underlined : Bool
  color : Option Color
  deriving DecidableEq, Repr

/-- A piece of text, with a style or without. -/
structure Span where
  text : String
  style : Option Style
  deriving DecidableEq, Repr

/-- Text in pieces. -/
abbrev Styled := List Span

/-- Text without a style. -/
def plain (text : String) : Styled := [⟨text, none⟩]

/-- Text in a color, bold or not. -/
def colored (color : Color) (bold : Bool) (text : String) : Styled :=
  [⟨text, some ⟨bold, false, false, some color⟩⟩]

/-- Dimmed text. -/
def dimmed (text : String) : Styled := [⟨text, some ⟨false, true, false, none⟩⟩]

/-- Underlined text. -/
def underlined (text : String) : Styled := [⟨text, some ⟨false, false, true, none⟩⟩]

/-- The escape sequence with a number. -/
def escape (number : Nat) : String := "\x1b[" ++ toString number ++ "m"

/-- The number of a color in escape sequences. -/
def Color.code : Color → Nat
  | red => 31
  | green => 32
  | yellow => 33

/-- The escape sequences that switch a style on, after all others are switched off. -/
def Style.switchOn (style : Style) : String :=
  let numbers := [0] ++ (if style.bold then [1] else []) ++ (if style.dimmed then [2] else [])
    ++ (if style.underlined then [4] else []) ++ (style.color.map Color.code).toList
  String.join (numbers.map escape)

/-- A piece with the escape sequences for its style. -/
def Span.ansi (span : Span) : String :=
  match span.style with
  | some style => style.switchOn ++ span.text ++ escape 0
  | none => span.text

namespace Styled

/-- The text without styles. -/
def toPlain (styled : Styled) : String := String.join (styled.map Span.text)

/-- The text with escape sequences. -/
def toAnsi (styled : Styled) : String := String.join (styled.map Span.ansi)

end Styled

end SelectorLint.Report
