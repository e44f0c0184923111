import SelectorLint.Proofs.Violations

/-!
# What comes of many files

An outcome is put together from what comes of each file on its own: its violations (`violationsIn`), or
the record that it could not be made out (`failureIn`). `execute_eq` says how. All else about outcomes is
read off from there: which violations and failures there are, in which order they stand, and that the
order in which the files were found leaves no trace (`execute_perm`).
-/

namespace SelectorLint

open Std Stylesheet Text

/-! ## The order of violations, key by key -/

/-- The violation does not come after the other one in a report: its file comes first, or else its line,
or else its column, or else its rule does not come later. -/
def Violation.NotAfter (first second : Violation) : Prop :=
  first.file.compare second.file = .lt ∨ first.file.compare second.file = .eq ∧
    (first.position.line < second.position.line ∨ first.position.line = second.position.line ∧
      (first.position.column < second.position.column ∨
        first.position.column = second.position.column ∧ first.rule.text ≤ second.rule.text))

theorem RuleId.isLE_compare_iff {first second : RuleId} :
    (first.compare second).isLE ↔ first.text ≤ second.text :=
  isLE_compareOfLessAndEq String.le_antisymm String.not_le String.le_total

theorem Violation.isLE_compare_iff {first second : Violation} :
    (first.compare second).isLE ↔ first.NotAfter second := by
  unfold Violation.compare NotAfter
  rw [Ordering.isLE_then_iff_or, Ordering.isLE_then_iff_or, Ordering.isLE_then_iff_or,
    Std.compare_eq_lt, Std.compare_eq_lt, Std.compare_eq_iff_eq, Std.compare_eq_iff_eq, RuleId.isLE_compare_iff]

namespace Registry

/-! ## One file -/

/-- The violations in a file that can be read and made out; there are none in any other. -/
def violationsIn (registry : Registry) (read : Path → Option String) (file : StyleFile) :
    List Violation :=
  ((read file.path).bind fun source =>
    (registry.checkSource file.path source file.dialect).toOption).getD []

/-- The record of a file that can be read but not made out. -/
def failureIn (read : Path → Option String) (file : StyleFile) : Option ParseFailure :=
  (read file.path).bind fun source =>
    match parse file.dialect source with
    | .ok _ => none
    | .error fault =>
      some ⟨file.path, (LineIndex.ofText source).position fault.offset, fault.offset,
        fault.cause.message⟩

section File

variable {registry : Registry} {read : Path → Option String} {file : StyleFile}

theorem mem_violationsIn_iff {violation : Violation} :
    violation ∈ registry.violationsIn read file ↔
      ∃ source violations, read file.path = some source ∧
        registry.checkSource file.path source file.dialect = .ok violations ∧
        violation ∈ violations := by
  unfold violationsIn
  cases read file.path with
  | none => simp
  | some source =>
    cases hcheck : registry.checkSource file.path source file.dialect with
    | error fault => simp [Except.toOption, hcheck]
    | ok violations => simp [Except.toOption, hcheck]

theorem file_of_mem_violationsIn {violation : Violation}
    (h : violation ∈ registry.violationsIn read file) : violation.file = file.path := by
  rcases mem_violationsIn_iff.1 h with ⟨source, violations, -, hcheck, hmem⟩
  exact file_of_mem_checkSource hcheck hmem

theorem failureIn_eq_none_iff :
    failureIn read file = none ↔
      ∀ source, read file.path = some source → ∃ styles, parse file.dialect source = .ok styles := by
  unfold failureIn
  cases read file.path with
  | none => simp
  | some source => cases hparse : parse file.dialect source <;> simp [hparse]

theorem file_of_failureIn {failure : ParseFailure} (h : failureIn read file = some failure) :
    failure.file = file.path := by
  rcases Option.bind_eq_some_iff.1 h with ⟨source, -, hparse⟩
  split at hparse
  · cases hparse
  · cases hparse
    rfl

end File

/-! ## All files -/

theorem violations_checkFile (registry : Registry) (file : StyleFile) (source : String) :
    (registry.checkFile file source).violations =
      (registry.checkSource file.path source file.dialect).toOption.getD [] := by
  unfold checkFile
  cases registry.checkSource file.path source file.dialect <;> rfl

theorem violations_checkFiles (registry : Registry) (read : Path → Option String)
    (files : List StyleFile) :
    (registry.checkFiles read files).flatMap FileOutcome.violations =
      files.flatMap (registry.violationsIn read) := by
  induction files with
  | nil => rfl
  | cons file rest ih =>
    rw [checkFiles_cons, List.flatMap_append, List.flatMap_cons, ih]
    unfold violationsIn
    cases read file.path with
    | none => rfl
    | some source =>
      rw [Option.map_some, Option.toList_some, List.flatMap_singleton, violations_checkFile]
      rfl

theorem failure?_checkFile (registry : Registry) (file : StyleFile) (source : String)
    {read : Path → Option String} (hread : read file.path = some source) :
    (registry.checkFile file source).failure? = failureIn read file := by
  unfold checkFile checkSource failureIn
  rw [hread, Option.bind_some]
  cases parse file.dialect source <;> rfl

theorem failures_checkFiles (registry : Registry) (read : Path → Option String)
    (files : List StyleFile) :
    (registry.checkFiles read files).filterMap FileOutcome.failure? =
      files.filterMap (failureIn read) := by
  unfold checkFiles
  rw [List.filterMap_filterMap]
  apply List.filterMap_congr
  intro file _
  cases hread : read file.path with
  | none => simp [failureIn, hread]
  | some source => exact failure?_checkFile registry file source hread

theorem length_checkFiles (registry : Registry) (read : Path → Option String)
    (files : List StyleFile) :
    (registry.checkFiles read files).length = files.countP fun file => (read file.path).isSome := by
  unfold checkFiles
  rw [List.length_filterMap_eq_countP]
  simp only [Option.isSome_map]

/-- The parts of an outcome, file by file. -/
theorem execute_eq (registry : Registry) (read : Path → Option String) (files : List StyleFile) :
    registry.execute read files =
      { violations := (files.flatMap (registry.violationsIn read)).mergeSort fun first second =>
          (first.compare second).isLE
        failures := (files.filterMap (failureIn read)).mergeSort fun first second =>
          (compareBy ParseFailure.file Path.compare first second).isLE
        filesChecked := files.countP fun file => (read file.path).isSome
        rulesExecuted := registry.length } := by
  rw [← violations_checkFiles, ← failures_checkFiles registry, ← length_checkFiles registry]
  rfl

/-- The outcome holds what comes of each of the files, in order, and nothing else. -/
structure Collects (registry : Registry) (read : Path → Option String) (files : List StyleFile)
    (outcome : Outcome) : Prop where
  violations : outcome.violations.Perm (files.flatMap (registry.violationsIn read))
  violations_sorted : outcome.violations.Pairwise Violation.NotAfter
  failures : outcome.failures.Perm (files.filterMap (failureIn read))
  failures_sorted : outcome.failures.Pairwise fun first second =>
    (first.file.compare second.file).isLE
  filesChecked : outcome.filesChecked = files.countP fun file => (read file.path).isSome
  rulesExecuted : outcome.rulesExecuted = registry.length

theorem collects_execute (registry : Registry) (read : Path → Option String)
    (files : List StyleFile) : registry.Collects read files (registry.execute read files) := by
  rw [execute_eq]
  refine ⟨List.mergeSort_perm _ _, ?_, List.mergeSort_perm _ _, ?_, rfl, rfl⟩
  · exact (pairwise_isLE_mergeSort _).imp Violation.isLE_compare_iff.1
  · show List.Pairwise
      (fun first second => (compareBy ParseFailure.file Path.compare first second).isLE) _
    exact pairwise_isLE_mergeSort _

/-! ## The order of the files -/

section Order

variable {registry : Registry} {read : Path → Option String} {files others : List StyleFile}

theorem mergeSort_violationsIn_of_perm
    (hsame : ∀ first ∈ files, ∀ second ∈ files,
      first.path.compare second.path = .eq → first = second)
    (hperm : files.Perm others) :
    (files.flatMap (registry.violationsIn read)).mergeSort
        (fun first second => (first.compare second).isLE) =
      (others.flatMap (registry.violationsIn read)).mergeSort
        fun first second => (first.compare second).isLE := by
  apply mergeSort_flatMap_of_perm hperm
  intro first hfirst second hsecond violation hviolation other hother heq
  apply hsame first hfirst second hsecond
  rw [← file_of_mem_violationsIn hviolation, ← file_of_mem_violationsIn hother]
  exact (Ordering.then_eq_eq.1 heq).1

theorem mergeSort_failureIn_of_perm
    (hsame : ∀ first ∈ files, ∀ second ∈ files,
      first.path.compare second.path = .eq → first = second)
    (hperm : files.Perm others) :
    (files.filterMap (failureIn read)).mergeSort
        (fun first second => (compareBy ParseFailure.file Path.compare first second).isLE) =
      (others.filterMap (failureIn read)).mergeSort
        fun first second => (compareBy ParseFailure.file Path.compare first second).isLE := by
  rw [List.filterMap_eq_flatMap_toList, List.filterMap_eq_flatMap_toList]
  apply mergeSort_flatMap_of_perm hperm
  intro first hfirst second hsecond failure hfailure other hother heq
  apply hsame first hfirst second hsecond
  rw [← file_of_failureIn (Option.mem_toList.1 hfailure),
    ← file_of_failureIn (Option.mem_toList.1 hother)]
  exact heq

/-- What comes of files does not depend on the order in which they are given, as long as different files
have different paths: a file may well be given twice. The outcome holds the violations and failures of
all the files, and these are sorted. -/
theorem execute_perm (registry : Registry) (read : Path → Option String)
    (hsame : ∀ first ∈ files, ∀ second ∈ files,
      first.path.compare second.path = .eq → first = second)
    (hperm : files.Perm others) :
    registry.execute read others = registry.execute read files ∧
      registry.Collects read files (registry.execute read files) := by
  refine ⟨?_, collects_execute registry read files⟩
  rw [execute_eq, execute_eq, mergeSort_violationsIn_of_perm hsame hperm,
    mergeSort_failureIn_of_perm hsame hperm, hperm.countP_eq]

end Order

/-- A file that is given twice, with one between that cannot be made out. -/
theorem execute_perm_repeated :
    ∃ outcome, execute [⟨.nestCombinators, ⟨⟨.always, .each⟩, .error⟩⟩]
        (fun path => if path.text = "a.css" then some ".a \x7b" else some ".p .q.r \x7b\x7d")
        [⟨⟨"b.scss"⟩, .scss⟩, ⟨⟨"a.css"⟩, .css⟩, ⟨⟨"b.scss"⟩, .scss⟩] = outcome ∧
      execute [⟨.nestCombinators, ⟨⟨.always, .each⟩, .error⟩⟩]
        (fun path => if path.text = "a.css" then some ".a \x7b" else some ".p .q.r \x7b\x7d")
        [⟨⟨"a.css"⟩, .css⟩, ⟨⟨"b.scss"⟩, .scss⟩, ⟨⟨"b.scss"⟩, .scss⟩] = outcome ∧
      outcome.violations.length = 4 ∧ outcome.failures.length = 1 ∧ outcome.filesChecked = 3 := by
  have hperm : ([⟨⟨"b.scss"⟩, .scss⟩, ⟨⟨"a.css"⟩, .css⟩, ⟨⟨"b.scss"⟩, .scss⟩] : List StyleFile).Perm
      [⟨⟨"a.css"⟩, .css⟩, ⟨⟨"b.scss"⟩, .scss⟩, ⟨⟨"b.scss"⟩, .scss⟩] := .swap _ _ _
  rcases execute_perm [⟨.nestCombinators, ⟨⟨.always, .each⟩, .error⟩⟩]
    (fun path => if path.text = "a.css" then some ".a \x7b" else some ".p .q.r \x7b\x7d") (by decide)
    hperm with ⟨hothers, hcollects⟩
  refine ⟨_, rfl, hothers, ?_, ?_, hcollects.filesChecked⟩
  · exact hcollects.violations.length_eq.trans (by decide +kernel)
  · exact hcollects.failures.length_eq.trans (by decide +kernel)

end Registry

end SelectorLint
