import SelectorLint.Data
import SelectorLint.Policy
import SelectorLint.Rule.Id

/-!
# Settings of rules

What is written after the id of a rule: a switch, the expectation alone, or the expectation with more.
`Setting.ofData?` says which data mean a setting.
-/

namespace SelectorLint

/-- How bad a violation is. -/
inductive Severity where
  | error
  | warning
  deriving DecidableEq, Repr

namespace Severity

/-- The name of a severity. -/
def label : Severity → String
  | error => "error"
  | warning => "warning"

/-- The severity with a given name. -/
def ofLabel? (name : String) : Option Severity :=
  [error, warning].find? fun severity => severity.label = name

end Severity

/-- What is written for a rule. -/
inductive Setting where
  | switch (on : Bool)
  | expectation (text : String)
  | detailed (expectation : String) (severity : Option Severity) (report : Option ReportMode)
  deriving DecidableEq, Repr

namespace Setting

/-- A choice by its name. It may also be the only key of a table, with nothing under it. -/
def choice? {Choice : Type} (ofLabel? : String → Option Choice) : Data → Option Choice
  | .string text => ofLabel? text
  | .table [(key, .null)] => ofLabel? key
  | _ => none

/-- A choice that may be left out. -/
def optional? {Choice : Type} (ofLabel? : String → Option Choice) :
    Option Data → Option (Option Choice)
  | none | some .null => some none
  | some data => (choice? ofLabel? data).map some

/-- The three parts of a detailed setting; the first one has to be there. -/
def ofParts? (expectation severity report : Option Data) : Option Setting := do
  let expectation ← expectation.bind Data.string?
  let severity ← optional? Severity.ofLabel? severity
  let report ← optional? ReportMode.ofLabel? report
  return .detailed expectation severity report

/-- The setting that data stand for. The parts of a detailed one are under their keys, and no others, or
they are in an array in their order. -/
def ofData? : Data → Option Setting
  | .boolean on => some (.switch on)
  | .string text => some (.expectation text)
  | .array items =>
    if items.length ≤ 3 then ofParts? items[0]? items[1]? items[2]? else none
  | .table entries =>
    if entries.all fun entry => ["expectation", "severity", "report"].contains entry.1 then
      ofParts? (Data.lookup "expectation" entries) (Data.lookup "severity" entries)
        (Data.lookup "report" entries)
    else none
  | _ => none

end Setting

/-- The settings of rules by their ids. -/
abbrev RuleTable := List (RuleId × Setting)

namespace RuleTable

/-- The setting that an entry of a table stands for. -/
def entry? (entry : String × Data) : Option (RuleId × Setting) := do
  let id ← RuleId.ofString? entry.1
  let setting ← Setting.ofData? entry.2
  return (id, setting)

/-- The settings that a table of data stands for. -/
def ofData? : Data → Option RuleTable
  | .table entries => entries.mapM entry?
  | _ => none

/-- The settings in the order of the rule ids. -/
def sorted (table : RuleTable) : RuleTable :=
  table.mergeSort fun first second => first.1.compare second.1 |>.isLE

end RuleTable

end SelectorLint
