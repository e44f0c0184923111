import SelectorLint.Document.Statement
import SelectorLint.Glob.Match
import SelectorLint.Report.Choice
import SelectorLint.Rule.Setting

/-!
# Configuration

What a configuration document says: which files are meant, which rules are enabled, and how to report.
`Config.ofData?` says which data are a configuration at all, and `Config.validate` what is wrong with one.
`Config.parse` reads the document, and fails with the first of the two that has something against it.
-/

namespace SelectorLint

/-- A configuration. -/
structure Config where
  version : String
  /-- Globs of the files that are checked. -/
  included : List String
  /-- Globs of the files that are left out all the same. -/
  excluded : List String
  rules : RuleTable
  format : Report.Format
  coloring : Report.Coloring
  deriving DecidableEq, Repr

namespace Config

/-- The name of the file that holds the configuration of a project. -/
def fileName : String := "nestlint.toml"

/-- The globs of the files that are checked if a configuration does not say which. -/
def defaultIncluded : List String := ["**/*.scss", "**/*.css"]

/-! ## From data -/

/-- The parts of a section: under their keys, or in an array in the order of the keys. Other parts do not
count. A date is a section without any part. -/
def parts? (keys : List String) : Data → Option (List (Option Data))
  | .table entries => some (keys.map fun key => Data.lookup key entries)
  | .array items => some (keys.zipIdx.map fun entry => items[entry.2]?)
  | .date => some (keys.map fun _ => none)
  | _ => none

/-- A choice by its name. It may also be the only key of a table, with something empty under it. -/
def choice? {Choice : Type} (ofLabel? : String → Option Choice) : Data → Option Choice
  | .string text => ofLabel? text
  | .table [(key, .table [])] => ofLabel? key
  | .table [(key, .array [])] => ofLabel? key
  | _ => none

/-- A part that has a value of its own if it is missing. -/
def orElse? {Value : Type} (read? : Data → Option Value) (default : Value) :
    Option Data → Option Value
  | none => some default
  | some data => read? data

/-- The version and the globs. -/
def scope? (data : Data) : Option (String × List String × List String) :=
  match parts? ["version", "include", "exclude"] data with
  | some [some version, included, excluded] => do
    let version ← version.string?
    let included ← orElse? Data.strings? defaultIncluded included
    let excluded ← orElse? Data.strings? [] excluded
    return (version, included, excluded)
  | _ => none

/-- The format of the report and its coloring. -/
def output? (data : Data) : Option (Report.Format × Report.Coloring) :=
  match parts? ["format", "color"] data with
  | some [format, coloring] => do
    let format ← orElse? (choice? Report.Format.ofLabel?) .human format
    let coloring ← orElse? (choice? Report.Coloring.ofLabel?) .auto coloring
    return (format, coloring)
  | _ => none

/-- The configuration that data stand for. Only its first section has to be there. -/
def ofData? : Data → Option Config
  | .table entries => do
    let (version, included, excluded) ← (Data.lookup "nestlint" entries).bind scope?
    let rules ← orElse? RuleTable.ofData? [] (Data.lookup "rules" entries)
    let (format, coloring) ← orElse? output? (.human, .auto) (Data.lookup "output" entries)
    return ⟨version, included, excluded, rules, format, coloring⟩
  | _ => none

/-! ## Validation -/

/-- What can be wrong with a configuration. -/
inductive Fault where
  | version (text : String)
  | included (glob : String) (fault : Glob.Fault)
  | excluded (glob : String) (fault : Glob.Fault)
  deriving DecidableEq, Repr

/-- The wording of a fault. -/
def Fault.message : Fault → String
  | version text => "Unsupported configuration version '" ++ text ++ "'. Expected '1'"
  | included glob fault =>
    "Invalid include glob pattern '" ++ glob ++ "': " ++ Glob.describe glob fault
  | excluded glob fault =>
    "Invalid exclude glob pattern '" ++ glob ++ "': " ++ Glob.describe glob fault

/-- Checks that all texts are globs. -/
def checkGlobs (fault : String → Glob.Fault → Fault) (globs : List String) : Except Fault Unit :=
  globs.forM fun glob => (Glob.parse glob).mapError (fault glob) |>.map fun _ => ()

/-- The first thing that is wrong with a configuration. -/
def validate (config : Config) : Except Fault Unit := do
  if config.version ≠ "1" then throw (.version config.version)
  checkGlobs .included config.included
  checkGlobs .excluded config.excluded

/-- Why there is no configuration. -/
inductive Problem where
  | unreadable (reason : String)
  /-- The document is not well written, or its data are no configuration. -/
  | malformed
  | invalid (reason : String)
  deriving DecidableEq, Repr

/-- The wording of a problem. Nothing is said of what makes a document malformed. -/
def Problem.message : Problem → String
  | unreadable reason => "I/O error: " ++ reason
  | malformed => "Invalid configuration syntax:"
  | invalid reason => "Invalid configuration: " ++ reason

/-- Reads a configuration document. -/
def parse (text : String) : Except Problem Config :=
  match (Document.parse? text).bind ofData? with
  | none => .error .malformed
  | some config =>
    match config.validate with
    | .ok () => .ok config
    | .error fault => .error (.invalid fault.message)

end Config

end SelectorLint
