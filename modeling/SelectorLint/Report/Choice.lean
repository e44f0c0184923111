/-!
# The choice of a report

Which report is written (`Format`), and whether it has colors (`Coloring.applies`).
-/

namespace SelectorLint.Report

/-- The two sorts of reports. -/
inductive Format where
  | human
  | jsonLines
  deriving DecidableEq, Repr

namespace Format

/-- The name of a format. -/
def label : Format → String
  | human => "human"
  | jsonLines => "jsonl"

/-- The format with a given name. -/
def ofLabel? (name : String) : Option Format :=
  [human, jsonLines].find? fun format => format.label = name

end Format

/-- When a report has colors. -/
inductive Coloring where
  /-- If it goes to a terminal. -/
  | auto
  | always
  | never
  deriving DecidableEq, Repr

namespace Coloring

/-- The name of a choice. -/
def label : Coloring → String
  | auto => "auto"
  | always => "always"
  | never => "never"

/-- The choice with a given name. -/
def ofLabel? (name : String) : Option Coloring :=
  [auto, always, never].find? fun coloring => coloring.label = name

/-- The report has colors. -/
def applies (terminal : Bool) : Coloring → Bool
  | auto => terminal
  | always => true
  | never => false

end Coloring

end SelectorLint.Report
