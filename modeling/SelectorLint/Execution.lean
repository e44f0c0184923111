import SelectorLint.Outcome
import SelectorLint.Project.Discovery

/-!
# Checking many files

All files that can be read are checked, each on its own (`Registry.checkFile`), and what comes of them is put
together and sorted (`Registry.execute`), the violations by `Violation.compare`. How a file is read is left to the
caller.
-/

namespace SelectorLint

/-- What came of checking one file. -/
inductive FileOutcome where
  | checked (violations : List Violation)
  | failed (failure : ParseFailure)
  deriving DecidableEq, Repr

namespace FileOutcome

/-- The violations in the file. -/
def violations : FileOutcome → List Violation
  | checked violations => violations
  | failed _ => []

/-- The failure, if the file could not be made out. -/
def failure? : FileOutcome → Option ParseFailure
  | checked _ => none
  | failed failure => some failure

end FileOutcome

/-- The order of violations in an outcome: by file, position, and rule. -/
def Violation.compare (first second : Violation) : Ordering :=
  (first.file.compare second.file).then <|
    (Ord.compare first.position.line second.position.line).then <|
      (Ord.compare first.position.column second.position.column).then <|
        first.rule.compare second.rule

namespace Registry

/-- What comes of a file with a given content. -/
def checkFile (registry : Registry) (file : StyleFile) (source : String) : FileOutcome :=
  match registry.checkSource file.path source file.dialect with
  | .ok violations => .checked violations
  | .error fault =>
    .failed ⟨file.path, (LineIndex.ofText source).position fault.offset, fault.offset,
      fault.cause.message⟩

/-- What comes of the files that can be read, in the order of the files. -/
def checkFiles (registry : Registry) (read : Path → Option String) (files : List StyleFile) :
    List FileOutcome :=
  files.filterMap fun file => (read file.path).map (registry.checkFile file)

/-- What comes of checking files. Files that cannot be read do not count. -/
def execute (registry : Registry) (read : Path → Option String) (files : List StyleFile) : Outcome :=
  let outcomes := registry.checkFiles read files
  { violations := (outcomes.flatMap FileOutcome.violations).mergeSort fun first second =>
      (first.compare second).isLE
    failures := (outcomes.filterMap FileOutcome.failure?).mergeSort fun first second =>
      (first.file.compare second.file).isLE
    filesChecked := outcomes.length
    rulesExecuted := registry.length }

end Registry

/-- The text of a file of a project, if it can be read. -/
def Project.text? (project : Project) (path : Path) : Option String := (project.read path).toOption

end SelectorLint
