import SelectorLint.Proofs.Execution

/-!
# The verdict

A run passes if every file that can be read can be made out, and no finding in it is an error. What a
finding is depends on the expectation alone, and it is an error only if the table says so (`Demands`).
Selectors that cannot be read give warnings, and a report of the last finding is empty only if there are
no findings. So neither they nor the report mode have a part in the verdict (`passed_execute_iff`).
-/

namespace SelectorLint

open Stylesheet

/-! ## Errors in one style rule -/

/-- To report only the last finding does not hide that there are findings. -/
theorem Policy.evaluate_eq_nil_iff (policy : Policy) (tree : Selector.Tree) (selector : String)
    (parent : Parent) :
    policy.evaluate tree selector parent = [] ↔
      evaluate ⟨policy.expectation, .each⟩ tree selector parent = [] := by
  rcases policy with ⟨expectation, report⟩
  cases report with
  | each => rfl
  | last =>
    show (findings expectation tree selector parent).getLast?.toList = [] ↔
      findings expectation tree selector parent = []
    rw [Option.toList_eq_nil_iff, List.getLast?_eq_none_iff]

/-- The rule has no errors in a style rule if it has none at all, if nothing is found under its
expectation, or if the selector cannot be read. -/
theorem EnabledRule.forall_check_iff (rule : EnabledRule) (file : Path) (lines : LineIndex)
    (style : StyleRule) :
    (∀ violation ∈ rule.check file lines style, violation.severity ≠ .error) ↔
      (rule.options.severity = .error → ∀ tree, Selector.parse style.selector = .ok tree →
        Policy.evaluate ⟨rule.options.policy.expectation, .each⟩ tree style.selector style.parent =
          []) := by
  have hremarks : (∀ violation ∈ rule.check file lines style, violation.severity ≠ .error) ↔
      ∀ remark ∈ rule.remarks style, remark.severity ≠ .error :=
    List.forall_mem_map
  rw [hremarks]
  unfold remarks
  cases hparse : Selector.parse style.selector with
  | error fault => simp
  | ok tree =>
    rw [List.forall_mem_map]
    constructor
    · intro hfree hseverity other heq
      cases heq
      rw [← Policy.evaluate_eq_nil_iff]
      apply List.eq_nil_iff_forall_not_mem.2
      intro finding hfinding
      exact hfree finding hfinding hseverity
    · intro hnone finding hfinding hseverity
      rw [(Policy.evaluate_eq_nil_iff _ _ _ _).2 (hnone hseverity tree rfl)] at hfinding
      cases hfinding

/-! ## Errors in files -/

theorem Outcome.passed_iff (outcome : Outcome) :
    outcome.passed = true ↔
      (∀ violation ∈ outcome.violations, violation.severity ≠ .error) ∧ outcome.failures = [] := by
  unfold passed count
  rw [Bool.and_eq_true, decide_eq_true_iff, List.countP_eq_zero, List.isEmpty_iff]
  simp only [decide_eq_true_iff]

namespace Registry

variable {registry : Registry} {read : Path → Option String} {file : StyleFile}

theorem violationsIn_of_parse {source : String} {styles : List StyleRule}
    (hread : read file.path = some source) (hparse : parse file.dialect source = .ok styles) :
    registry.violationsIn read file =
      registry.flatMap fun rule => styles.flatMap (rule.check file.path (.ofText source)) := by
  unfold violationsIn checkSource
  rw [hread, Option.bind_some, hparse]
  rfl

theorem forall_violationsIn_iff :
    ((∀ violation ∈ registry.violationsIn read file, violation.severity ≠ .error) ∧
        failureIn read file = none) ↔
      ∀ source, read file.path = some source →
        ∃ styles, parse file.dialect source = .ok styles ∧ ∀ rule ∈ registry, ∀ style ∈ styles,
          ∀ violation ∈ rule.check file.path (.ofText source) style, violation.severity ≠ .error := by
  rw [failureIn_eq_none_iff]
  constructor
  · intro hfree source hread
    rcases hfree.2 source hread with ⟨styles, hparse⟩
    refine ⟨styles, hparse, ?_⟩
    intro rule hrule style hstyle violation hviolation
    apply hfree.1
    rw [violationsIn_of_parse hread hparse]
    exact List.mem_flatMap.2 ⟨rule, hrule, List.mem_flatMap.2 ⟨style, hstyle, hviolation⟩⟩
  · intro hall
    constructor
    · intro violation hviolation
      rcases mem_violationsIn_iff.1 hviolation with ⟨source, -, hread, -, -⟩
      rcases hall source hread with ⟨styles, hparse, hfree⟩
      rw [violationsIn_of_parse hread hparse] at hviolation
      rcases List.mem_flatMap.1 hviolation with ⟨rule, hrule, hstyles⟩
      rcases List.mem_flatMap.1 hstyles with ⟨style, hstyle, hcheck⟩
      exact hfree rule hrule style hstyle violation hcheck
    · intro source hread
      rcases hall source hread with ⟨styles, hparse, -⟩
      exact ⟨styles, hparse⟩

theorem passed_iff_forall (files : List StyleFile) :
    (registry.execute read files).passed = true ↔
      ∀ file ∈ files, (∀ violation ∈ registry.violationsIn read file, violation.severity ≠ .error) ∧
        failureIn read file = none := by
  have hcollects := collects_execute registry read files
  have hfailures : (registry.execute read files).failures = [] ↔
      ∀ file ∈ files, failureIn read file = none := by
    rw [← List.filterMap_eq_nil_iff, ← List.length_eq_zero_iff, hcollects.failures.length_eq,
      List.length_eq_zero_iff]
  rw [Outcome.passed_iff, hfailures]
  simp only [hcollects.violations.mem_iff, List.mem_flatMap]
  constructor
  · intro hfree file hfile
    refine ⟨?_, hfree.2 file hfile⟩
    intro violation hviolation
    exact hfree.1 violation ⟨file, hfile, hviolation⟩
  · intro hall
    refine ⟨?_, fun file hfile => (hall file hfile).2⟩
    intro violation hviolation
    rcases hviolation with ⟨file, hfile, hmem⟩
    exact (hall file hfile).1 violation hmem

end Registry

/-! ## The verdict -/

/-- The table asks for an expectation, and what is found under it is an error. -/
def RuleTable.Demands (table : RuleTable) (expectation : Expectation) : Prop :=
  ∃ setting report, (Builtin.nestCombinators.id, setting) ∈ table ∧
    RuleOptions.ofSetting .nestCombinators setting = .ok (some ⟨⟨expectation, report⟩, .error⟩)

theorem RuleTable.demands_iff_of_build {table : RuleTable} {registry : Registry}
    (h : Registry.build table = .ok registry) {expectation : Expectation} :
    table.Demands expectation ↔
      ∃ rule ∈ registry, rule.options.severity = .error ∧
        rule.options.policy.expectation = expectation := by
  simp only [Registry.mem_iff_of_build h]
  constructor
  · intro hdemands
    rcases hdemands with ⟨setting, report, hmem, hsetting⟩
    exact ⟨⟨.nestCombinators, ⟨⟨expectation, report⟩, .error⟩⟩, ⟨_, hmem, rfl, hsetting⟩, rfl, rfl⟩
  · intro hrule
    rcases hrule with ⟨⟨⟨⟩, ⟨⟨_, report⟩, _⟩⟩, ⟨⟨_, setting⟩, hmem, rfl, hsetting⟩, rfl, rfl⟩
    exact ⟨setting, report, hmem, hsetting⟩

/-- The text of a stylesheet can be made out and, where findings are errors, nothing is found in any
selector of it that can be read. -/
def RuleTable.Accepts (table : RuleTable) (dialect : Dialect) (source : String) : Prop :=
  ∃ styles, parse dialect source = .ok styles ∧
    ∀ expectation, table.Demands expectation → ∀ style ∈ styles, ∀ tree,
      Selector.parse style.selector = .ok tree →
        Policy.evaluate ⟨expectation, .each⟩ tree style.selector style.parent = []

section Verdict

variable {table : RuleTable} {registry : Registry}

theorem RuleTable.accepts_iff_of_build (h : Registry.build table = .ok registry) (file : Path)
    (dialect : Dialect) (source : String) :
    table.Accepts dialect source ↔
      ∃ styles, parse dialect source = .ok styles ∧ ∀ rule ∈ registry, ∀ style ∈ styles,
        ∀ violation ∈ rule.check file (.ofText source) style, violation.severity ≠ .error := by
  unfold Accepts
  simp only [demands_iff_of_build h, EnabledRule.forall_check_iff]
  constructor
  · intro haccepts
    rcases haccepts with ⟨styles, hparse, hnone⟩
    refine ⟨styles, hparse, ?_⟩
    intro rule hrule style hstyle hseverity
    exact hnone _ ⟨rule, hrule, hseverity, rfl⟩ style hstyle
  · intro hfree
    rcases hfree with ⟨styles, hparse, hnone⟩
    refine ⟨styles, hparse, ?_⟩
    intro expectation hdemands style hstyle
    rcases hdemands with ⟨rule, hrule, hseverity, rfl⟩
    exact hnone rule hrule style hstyle hseverity

theorem passed_iff_of_build (h : Registry.build table = .ok registry) (read : Path → Option String)
    (files : List StyleFile) :
    (registry.execute read files).passed = true ↔
      ∀ file ∈ files, ∀ source, read file.path = some source →
        table.Accepts file.dialect source := by
  rw [Registry.passed_iff_forall]
  simp only [Registry.forall_violationsIn_iff]
  constructor
  · intro hall file hfile source hread
    exact (RuleTable.accepts_iff_of_build h _ _ _).2 (hall file hfile source hread)
  · intro hall file hfile source hread
    exact (RuleTable.accepts_iff_of_build h _ _ _).1 (hall file hfile source hread)

/-- A run passes if and only if all files that can be read are accepted. In this condition there is no
report mode and no file that cannot be read: the verdict is the same for another table with the same
demands, and for other files if those that can be read are the same. -/
theorem passed_execute_iff (hbuild : Registry.build table = .ok registry)
    (read : Path → Option String) (files : List StyleFile) :
    ((registry.execute read files).passed = true ↔
      ∀ file ∈ files, ∀ source, read file.path = some source → table.Accepts file.dialect source) ∧
      ∀ otherTable otherRegistry otherFiles, Registry.build otherTable = .ok otherRegistry →
        (∀ expectation, otherTable.Demands expectation ↔ table.Demands expectation) →
        (∀ file : StyleFile, (read file.path).isSome → (file ∈ otherFiles ↔ file ∈ files)) →
          (otherRegistry.execute read otherFiles).passed = (registry.execute read files).passed := by
  refine ⟨passed_iff_of_build hbuild read files, ?_⟩
  intro otherTable otherRegistry otherFiles hother hdemands hfiles
  rw [Bool.eq_iff_iff, passed_iff_of_build hother, passed_iff_of_build hbuild]
  have haccepts : ∀ dialect source,
      otherTable.Accepts dialect source ↔ table.Accepts dialect source := by
    intro dialect source
    simp only [RuleTable.Accepts, hdemands]
  simp only [haccepts]
  constructor
  · intro hall file hfile source hread
    exact hall file ((hfiles file (by simp [hread])).2 hfile) source hread
  · intro hall file hfile source hread
    exact hall file ((hfiles file (by simp [hread])).1 hfile) source hread

end Verdict

/-- Neither a file that cannot be read nor a selector that cannot be read makes a run fail. A finding
does, also where only the last one is reported. -/
theorem passed_execute_iff_last :
    (Registry.execute [⟨.nestCombinators, ⟨⟨.always, .last⟩, .error⟩⟩]
        (fun path => if path.text = "a.scss" then some ". \x7b\x7d" else none)
        [⟨⟨"a.scss"⟩, .scss⟩, ⟨⟨"b.scss"⟩, .scss⟩]).passed = true ∧
      (Registry.execute [⟨.nestCombinators, ⟨⟨.always, .last⟩, .error⟩⟩]
        (fun _ => some ".a.b.c \x7b\x7d") [⟨⟨"a.scss"⟩, .scss⟩]).passed = false := by
  have hbuild : Registry.build [(Builtin.nestCombinators.id, .detailed "always" none (some .last))] =
      .ok [⟨.nestCombinators, ⟨⟨.always, .last⟩, .error⟩⟩] := by
    unfold Registry.build RuleTable.sorted
    rw [List.mergeSort_singleton]
    rfl
  constructor
  · apply (passed_execute_iff hbuild _ _).1.2
    intro file hfile source hread
    have hsource : file.dialect = .scss ∧ source = ". \x7b\x7d" := by
      simp only [List.mem_cons, List.not_mem_nil, or_false] at hfile
      rcases hfile with rfl | rfl
      · exact ⟨rfl, by simpa using hread.symm⟩
      · simp at hread
    rw [hsource.1, hsource.2]
    refine ⟨[⟨".", 0, .root, 0⟩], by decide +kernel, ?_⟩
    intro expectation _ style hstyle tree htree
    rw [List.mem_singleton.1 hstyle] at htree
    have hfault : (Selector.parse ".").toOption = none := by decide +kernel
    rw [htree] at hfault
    cases hfault
  · rw [Bool.eq_false_iff]
    intro hpassed
    rcases (passed_execute_iff hbuild _ _).1.1 hpassed _ List.mem_cons_self _ rfl with
      ⟨styles, hparse, hnone⟩
    have hstyles : parse .scss ".a.b.c \x7b\x7d" = .ok [⟨".a.b.c", 0, .root, 0⟩] := by decide +kernel
    obtain rfl := Except.ok.inj (hparse.symm.trans hstyles)
    have hfindings : (Selector.parse ".a.b.c").toOption.map (fun tree =>
        (Policy.evaluate ⟨.always, .each⟩ tree ".a.b.c" .root).length) = some 2 := by
      decide +kernel
    rcases Option.map_eq_some_iff.1 hfindings with ⟨tree, htree, hlength⟩
    have hok : Selector.parse ".a.b.c" = .ok tree := by
      cases hresult : Selector.parse ".a.b.c" <;> rw [hresult] at htree <;> cases htree
      rfl
    have hnil := hnone .always ⟨_, .last, List.mem_cons_self, rfl⟩ _ List.mem_cons_self tree hok
    rw [hnil] at hlength
    cases hlength

end SelectorLint
