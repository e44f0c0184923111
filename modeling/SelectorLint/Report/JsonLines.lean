import SelectorLint.Outcome

/-!
# Reports for programs

A report (`jsonLines`) is a sequence of lines, each of which is a JSON object: the violations, the files that could
not be made out, and the verdict (`records`). A text is quoted so that it takes no line break with it (`quoted`).
-/

namespace SelectorLint.Report

/-- A value in a record. -/
inductive Scalar where
  | text (value : String)
  | number (value : Nat)
  | boolean (value : Bool)
  deriving DecidableEq, Repr

/-- A record: keys with values, in order. -/
abbrev Record := List (String × Scalar)

/-- The digit for a number below 16. -/
def hexDigit (value : Nat) : Char :=
  if value < 10 then Char.ofNat (48 + value) else Char.ofNat (87 + value)

/-- How a character is written in a quoted text. -/
def escaped (c : Char) : List Char :=
  match c with
  | '"' => ['\\', '"']
  | '\\' => ['\\', '\\']
  | '\x08' => ['\\', 'b']
  | '\t' => ['\\', 't']
  | '\n' => ['\\', 'n']
  | '\x0c' => ['\\', 'f']
  | '\r' => ['\\', 'r']
  | c =>
    if c.toNat < 32 then ['\\', 'u', '0', '0', hexDigit (c.toNat / 16), hexDigit (c.toNat % 16)]
    else [c]

/-- The quoted form of a text. -/
def quoted (text : String) : String :=
  String.ofList ('"' :: text.toList.flatMap escaped ++ ['"'])

/-- How a value is written. -/
def Scalar.written : Scalar → String
  | text value => quoted value
  | number value => toString value
  | boolean value => if value then "true" else "false"

/-- How a key with its value is written. -/
def writtenEntry (entry : String × Scalar) : String := quoted entry.1 ++ ":" ++ entry.2.written

/-- How a record is written. -/
def writtenRecord (record : Record) : String :=
  "\x7b" ++ ",".intercalate (record.map writtenEntry) ++ "\x7d"

/-- Records as lines. -/
def writtenLines (records : List Record) : String :=
  String.join (records.map fun record => writtenRecord record ++ "\n")

/-- The record of a violation. -/
def violationRecord (violation : Violation) : Record :=
  [("type", .text "violation"), ("rule", .text violation.rule.text),
   ("file", .text violation.file.text), ("line", .number violation.position.line.toNat),
   ("column", .number violation.position.column.toNat), ("offset", .number violation.offset),
   ("severity", .text violation.severity.label), ("message", .text violation.message),
   ("selector", .text violation.selector)]

/-- The record of a file that could not be made out. -/
def failureRecord (failure : ParseFailure) : Record :=
  [("type", .text "parse_error"), ("file", .text failure.file.text),
   ("line", .number failure.position.line.toNat), ("column", .number failure.position.column.toNat),
   ("message", .text failure.message)]

/-- The record of the verdict. -/
def statusRecord (outcome : Outcome) : Record :=
  [("type", .text "status"), ("passed", .boolean outcome.passed),
   ("files_checked", .number outcome.filesChecked), ("errors", .number (outcome.count .error)),
   ("warnings", .number (outcome.count .warning)),
   ("parse_errors", .number outcome.failures.length)]

/-- The records of a report. -/
def records (outcome : Outcome) : List Record :=
  outcome.violations.map violationRecord ++ outcome.failures.map failureRecord
    ++ [statusRecord outcome]

/-- The whole report. -/
def jsonLines (outcome : Outcome) : String := writtenLines (records outcome)

end SelectorLint.Report
