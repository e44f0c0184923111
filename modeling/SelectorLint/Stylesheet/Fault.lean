/-!
# What can be wrong with a stylesheet

Only the structure of blocks is read, so these are the ways in which it can be broken (`Fault`), with the wording
of each (`Fault.message`).
-/

namespace SelectorLint.Stylesheet

/-- A way in which the structure of a stylesheet is broken. -/
inductive Fault where
  /-- A block that nothing stands before. -/
  | missingHeading
  | unexpectedClose
  | unclosedBlock
  | unclosedComment
  | unclosedInterpolation
  | unclosedString
  deriving DecidableEq, Repr

/-- The wording of a fault. -/
def Fault.message : Fault → String
  | missingHeading => "Expected a selector or at-rule before '\x7b'"
  | unexpectedClose => "Unexpected '\x7d'"
  | unclosedBlock => "Unclosed block"
  | unclosedComment => "Unclosed comment"
  | unclosedInterpolation => "Unclosed interpolation"
  | unclosedString => "Unclosed string"

end SelectorLint.Stylesheet
