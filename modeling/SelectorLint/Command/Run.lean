import SelectorLint.Command.Arguments
import SelectorLint.Execution
import SelectorLint.Failure
import SelectorLint.Report.Human
import SelectorLint.Report.Listings

/-!
# Running commands

What a command prints, its exit code, and what it leaves in the project (`Invocation.run`): `check` reports on the
stylesheets under some paths, `list` shows the rules, and `init` writes a configuration. Only `init` changes a
project.
-/

namespace SelectorLint

/-- What a command prints, and its exit code. -/
structure Transcript where
  code : Nat
  output : String
  errors : String
  deriving DecidableEq, Repr

namespace Transcript

/-- Lines with their ends. -/
def joined (lines : List String) : String := String.join (lines.map fun line => line ++ "\n")

/-- A command that ends with a failure, after some lines. -/
def failed (code : Nat) (lines : List String) (message : String) : Transcript :=
  ⟨code, "", joined (lines ++ ["Error: " ++ message])⟩

end Transcript

/-- The exit code for a failure. A malformed configuration has one of its own. -/
def Failure.exitCode : Failure → Nat
  | config .malformed => 3
  | _ => 2

namespace Project

/-- The configuration in a file. -/
def config (project : Project) (path : Path) : Except Config.Problem Config :=
  if project.contains path then
    match project.read path with
    | .ok text => Config.parse text
    | .error fault => .error (.unreadable fault.message)
  else
    .error (.unreadable (path.text ++ " not found. Run 'nestlint init' to create it."))

/-- The configuration in a file, and the rules that it enables. -/
def setup (project : Project) (path : Path) : Except Failure (Config × Registry) := do
  let config ← (project.config path).mapError Failure.config
  let registry ← (Registry.build config.rules).mapError Failure.rule
  return (config, registry)

/-! ## Checking -/

/-- What was found under some paths, up to the first problem. -/
structure Search where
  files : List StyleFile
  skipped : List (Path × SkipReason)
  problem : Option DiscoveryProblem
  deriving DecidableEq, Repr

/-- Looks for stylesheets under paths. -/
def search (project : Project) (filter : Filter) : List String → Search
  | [] => ⟨[], [], none⟩
  | root :: roots =>
    match project.classified filter ⟨root⟩ with
    | .error problem => ⟨[], [], some problem⟩
    | .ok entries =>
      let later := project.search filter roots
      let files := entries.filterMap fun entry => entry.2.toOption
      let skipped := entries.filterMap fun entry =>
        match entry.2 with
        | .ok _ => none
        | .error reason => some (entry.1, reason)
      ⟨files ++ later.files, skipped ++ later.skipped, later.problem⟩

/-- The lines on entries that are not checked, in the order of their texts. -/
def Search.skipLines (search : Search) : List String :=
  (search.skipped.map fun entry => "Skipping " ++ entry.1.text ++ ": " ++ entry.2.label).mergeSort
    fun first second => first ≤ second

/-- Checks the stylesheets under paths. Colors are only for people. -/
def check (project : Project) (invocation : Invocation) (paths : List String)
    (format : Option Report.Format) (configFile : String) (verbose terminal : Bool) : Transcript :=
  match project.setup ⟨configFile⟩ with
  | .error failure => .failed failure.exitCode [] failure.message
  | .ok (config, registry) =>
    let format := format.getD config.format
    let coloring := invocation.coloring.getD config.coloring
    let noRules := if registry.isEmpty then ["Warning: No rules are enabled. Nothing to check."] else []
    match Filter.ofGlobs config.included config.excluded with
    | .error problem => .failed 2 noRules (Failure.discovery problem).message
    | .ok filter =>
      let search := project.search filter paths
      let lines := noRules ++ if verbose then search.skipLines else []
      match search.problem with
      | some problem => .failed 2 lines (Failure.discovery problem).message
      | none =>
        let noFiles := if search.files.isEmpty then ["Warning: No files found to check."] else []
        let outcome := registry.execute project.text? search.files
        let code := if outcome.passed then 0 else 1
        match format with
        | .human =>
          let summary := "Checking " ++ toString search.files.length ++ " files with "
            ++ toString registry.length ++ " rules..."
          let report := Report.human outcome
          ⟨code, if coloring.applies terminal then report.toAnsi else report.toPlain,
            Transcript.joined (lines ++ noFiles ++ [summary])⟩
        | .jsonLines => ⟨code, Report.jsonLines outcome, Transcript.joined (lines ++ noFiles)⟩

/-! ## Other commands -/

/-- Shows all rules. -/
def list (project : Project) (format : Report.Format) (configFile : String) : Transcript :=
  match project.setup ⟨configFile⟩ with
  | .error failure => .failed failure.exitCode [] failure.message
  | .ok (_, registry) =>
    match format with
    | .human => ⟨0, Report.humanListings registry.listings, ""⟩
    | .jsonLines => ⟨0, Report.jsonListings registry.listings, ""⟩

/-- The configuration that a project starts with. -/
def initialConfig : String :=
  Transcript.joined
    ["[nestlint]",
     "version = \"1\"",
     "",
     "# File patterns to include (defaults to all .scss and .css files)",
     "# include = [\"src/**/*.scss\"]",
     "",
     "# File patterns to exclude",
     "# exclude = [\"**/vendor/**\"]",
     "",
     "[rules]",
     "# \"always\" asks for combinators and chained selectors to be nested,",
     "# \"never\" rejects selectors of rules nested inside other rules.",
     "\"scss/selector-nest-combinators\" = \"always\"",
     "",
     "# Full form:",
     "# \"scss/selector-nest-combinators\" = \x7b expectation = \"always\", severity = \"warning\", "
       ++ "report = \"last\" \x7d",
     "",
     "[output]",
     "format = \"human\""]

/-- Writes the configuration that a project starts with. One that is there is kept unless that is forced. -/
def init (project : Project) (force : Bool) : Transcript × Project :=
  let name := Config.fileName
  let present := project.contains ⟨name⟩
  if present && !force then
    (⟨0, "Skipped " ++ name ++ " (already exists, use --force to overwrite)\n", ""⟩, project)
  else
    match project.write name initialConfig with
    | .error fault => (.failed 2 [] ("Failed to write " ++ name ++ ": " ++ fault.message), project)
    | .ok written => (⟨0, (if present then "Overwrote " else "Created ") ++ name ++ "\n", ""⟩, written)

end Project

/-- Runs a command in a project. The report goes to a terminal or not. -/
def Invocation.run (invocation : Invocation) (terminal : Bool) (project : Project) :
    Transcript × Project :=
  match invocation.command with
  | .check paths format config verbose =>
    (project.check invocation paths format config verbose terminal, project)
  | .init force => project.init force
  | .list format config => (project.list format config, project)

end SelectorLint
