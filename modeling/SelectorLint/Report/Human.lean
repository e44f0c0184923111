import SelectorLint.Outcome
import SelectorLint.Report.Styled

/-!
# Reports for people

A report (`human`) has a section for each run of violations of one file (`sections`), with the file as heading
(`fileHeader`) and a line for each violation (`violationLine`), then a line for each file that could not be made
out (`failureLine`), and a summary.
-/

namespace SelectorLint.Report

/-- The color that shows a severity. -/
def severityColor : Severity → Color
  | .error => .red
  | .warning => .yellow

/-- The text with blanks after it up to the length of the longest name of a severity. -/
def padded (text : String) : String := text ++ "".pushn ' ' (7 - text.length)

/-- The line of a violation. -/
def violationLine (violation : Violation) : Styled :=
  plain ("  " ++ toString violation.position.line.toNat ++ ":"
      ++ toString violation.position.column.toNat ++ "  ")
    ++ colored (severityColor violation.severity) false (padded violation.severity.label)
    ++ plain ("  " ++ violation.message ++ "  ") ++ dimmed violation.rule.text ++ plain "\n"

/-- The line with the name of a file. -/
def fileHeader (file : Path) : Styled := underlined file.text ++ plain "\n"

/-- The violations from here on, after some of the file `current`. -/
def sections (current : Option Path) : List Violation → Styled
  | [] => []
  | violation :: rest =>
    let header :=
      match current with
      | none => fileHeader violation.file
      | some file =>
        if file.same violation.file then [] else plain "\n" ++ fileHeader violation.file
    header ++ violationLine violation ++ sections (some violation.file) rest

theorem sections_none (violation : Violation) (rest : List Violation) :
    sections none (violation :: rest) =
      fileHeader violation.file ++ violationLine violation ++ sections (some violation.file) rest := rfl

theorem sections_some (file : Path) (violation : Violation) (rest : List Violation) :
    sections (some file) (violation :: rest) =
      (if file.same violation.file then [] else plain "\n" ++ fileHeader violation.file) ++
        violationLine violation ++ sections (some violation.file) rest := rfl

/-- All violations, with an empty line after them if there are any. -/
def violationsPart (violations : List Violation) : Styled :=
  sections none violations ++ if violations.isEmpty then [] else plain "\n"

/-- The line of a file that could not be made out. -/
def failureLine (failure : ParseFailure) : Styled :=
  colored .red true "error"
    ++ plain (": " ++ failure.file.text ++ ":" ++ toString failure.position.line.toNat ++ ":"
      ++ toString failure.position.column.toNat ++ ": cannot parse stylesheet: " ++ failure.message
      ++ "\n")

/-- The summary. -/
def summary (outcome : Outcome) : Styled :=
  let verdict := if outcome.passed then colored .green true "✓" else colored .red true "✗"
  verdict
    ++ plain (" " ++ toString (outcome.count .error) ++ " error(s), "
      ++ toString (outcome.count .warning) ++ " warning(s) in " ++ toString outcome.filesChecked
      ++ " file(s)\n")
    ++ if outcome.failures.isEmpty then []
      else plain (toString outcome.failures.length ++ " file(s) could not be parsed\n")

/-- The whole report. -/
def human (outcome : Outcome) : Styled :=
  violationsPart outcome.violations ++ outcome.failures.flatMap failureLine ++ summary outcome

end SelectorLint.Report
