import SelectorLint.Check

/-!
# Outcomes

What came of checking a number of files: the violations, the files that could not be read as stylesheets,
and the verdict (`Outcome.passed`).
-/

namespace SelectorLint

/-- A file whose blocks could not be made out. -/
structure ParseFailure where
  file : Path
  position : Position
  offset : Nat
  message : String
  deriving DecidableEq, Repr

/-- What came of checking files. -/
structure Outcome where
  violations : List Violation
  failures : List ParseFailure
  filesChecked : Nat
  rulesExecuted : Nat
  deriving DecidableEq, Repr

namespace Outcome

/-- The number of violations of a severity. -/
def count (outcome : Outcome) (severity : Severity) : Nat :=
  outcome.violations.countP fun violation => violation.severity = severity

/-- There is no violation that is an error, and no file that could not be made out. -/
def passed (outcome : Outcome) : Bool :=
  outcome.count .error = 0 && outcome.failures.isEmpty

end Outcome

end SelectorLint
