/-!
# What can be wrong with a selector

Every way in which the text of a selector fails to be one (`Fault`), with the wording of each (`Fault.message`).
-/

namespace SelectorLint.Selector

/-- A way in which a text is no selector. -/
inductive Fault where
  | unexpectedCharacter (c : Char)
  /-- A combinator right after another one. -/
  | unexpectedCombinator (c : Char)
  /-- A group without anything in it. -/
  | expectedSelector
  | expectedClassName
  | expectedId
  | expectedPseudoName
  | emptyAttribute
  | unclosedAttribute
  | unclosedArgument
  | unclosedComment
  | unclosedInterpolation
  | unclosedString
  /-- A backslash at the end of the text. -/
  | unfinishedEscape
  deriving DecidableEq, Repr

/-- The wording of a fault. -/
def Fault.message : Fault → String
  | unexpectedCharacter c => "Unexpected character '" ++ c.toString ++ "'"
  | unexpectedCombinator c => "Unexpected combinator '" ++ c.toString ++ "'"
  | expectedSelector => "Expected a selector"
  | expectedClassName => "Expected a class name"
  | expectedId => "Expected an id"
  | expectedPseudoName => "Expected a pseudo-class name"
  | emptyAttribute => "Empty attribute selector"
  | unclosedAttribute => "Unclosed attribute selector"
  | unclosedArgument => "Unclosed pseudo-class argument"
  | unclosedComment => "Unclosed comment"
  | unclosedInterpolation => "Unclosed interpolation"
  | unclosedString => "Unclosed string"
  | unfinishedEscape => "Unfinished escape"

end SelectorLint.Selector
