import SelectorLint.Rule.Setting

/-!
# The rules that are enabled

The library has rules of its own (`Builtin`), and a table of settings enables some of them (`Registry.build`). The
registry holds the enabled ones in the order of their ids; no id can be registered twice (`Registry.register`).
-/

namespace SelectorLint

/-- Why rules cannot be enabled. -/
inductive RuleProblem where
  | invalidOption (rule value : String)
  | notFound (id : String)
  | invalidDefinition (reason : String)
  deriving DecidableEq, Repr

/-- The wording of a problem with rules. -/
def RuleProblem.message : RuleProblem → String
  | invalidOption rule value => "Invalid option value \"" ++ value ++ "\" for rule \"" ++ rule ++ "\""
  | notFound id => "Rule not found: " ++ id
  | invalidDefinition reason => "Invalid rule definition: " ++ reason

/-- The rules of this library. -/
inductive Builtin where
  | nestCombinators
  deriving DecidableEq, Repr

namespace Builtin

/-- All rules of this library. -/
def all : List Builtin := [nestCombinators]

/-- The name of a rule. -/
def name : Builtin → String
  | nestCombinators => "selector-nest-combinators"

/-- What a rule is for. -/
def description : Builtin → String
  | nestCombinators => "Require or disallow nesting of combinators and chained selectors"

/-- The id of a rule. -/
def id (builtin : Builtin) : RuleId where
  text := RuleId.qualified builtin.name
  valid := by cases builtin; decide +kernel

/-- The rule with a given id. -/
def ofId? (id : RuleId) : Option Builtin := all.find? fun builtin => builtin.id = id

end Builtin

/-- What a rule checks and how bad its violations are. -/
structure RuleOptions where
  policy : Policy
  severity : Severity
  deriving DecidableEq, Repr

namespace RuleOptions

/-- The expectation that a setting of a rule names. -/
def expectation (builtin : Builtin) (text : String) : Except RuleProblem Expectation :=
  match Expectation.ofLabel? text with
  | some expectation => .ok expectation
  | none => .error (.invalidOption builtin.id.text text)

/-- The options that a setting stands for; there are none if it switches the rule off. -/
def ofSetting (builtin : Builtin) : Setting → Except RuleProblem (Option RuleOptions)
  | .switch false => .ok none
  | .switch true => .error (.invalidOption builtin.id.text "true")
  | .expectation text =>
    (expectation builtin text).map fun expectation => some ⟨⟨expectation, .each⟩, .error⟩
  | .detailed text severity report =>
    (expectation builtin text).map fun expectation =>
      some ⟨⟨expectation, report.getD .each⟩, severity.getD .error⟩

end RuleOptions

/-- An enabled rule. -/
structure EnabledRule where
  builtin : Builtin
  options : RuleOptions
  deriving DecidableEq, Repr

/-- The id of an enabled rule. -/
def EnabledRule.id (rule : EnabledRule) : RuleId := rule.builtin.id

/-- The enabled rules, in the order of their ids. -/
abbrev Registry := List EnabledRule

namespace Registry

/-- The enabled rule with a given id. -/
def get? (registry : Registry) (id : RuleId) : Option EnabledRule :=
  registry.find? fun rule => rule.id = id

/-- Puts a rule into its place. -/
def insert (registry : Registry) (rule : EnabledRule) : Registry :=
  match registry with
  | [] => [rule]
  | first :: rest =>
    if (rule.id.compare first.id).isLT then rule :: first :: rest else first :: insert rest rule

/-- Adds a rule that is not enabled yet. -/
def register (registry : Registry) (rule : EnabledRule) : Except RuleProblem Registry :=
  match registry.get? rule.id with
  | some _ => .error (.invalidDefinition ("Duplicate rule ID '" ++ rule.id.text ++ "'"))
  | none => .ok (registry.insert rule)

/-- Adds a rule with its setting, if that does not switch it off. -/
def configure (registry : Registry) (builtin : Builtin) (setting : Setting) :
    Except RuleProblem Registry := do
  match ← RuleOptions.ofSetting builtin setting with
  | some options => registry.register ⟨builtin, options⟩
  | none => .ok registry

/-- Adds the rule of an entry of the settings. -/
def addEntry (registry : Registry) (entry : RuleId × Setting) : Except RuleProblem Registry :=
  match Builtin.ofId? entry.1 with
  | some builtin => registry.configure builtin entry.2
  | none => .error (.notFound entry.1.text)

/-- The rules that the settings enable. They are taken in the order of their ids, and the first problem
counts. -/
def build (table : RuleTable) : Except RuleProblem Registry :=
  table.sorted.foldlM addEntry []

end Registry

/-- What is shown of a rule in a list of all rules. -/
structure Listing where
  rule : String
  description : String
  /-- The expectation and the severity, if the rule is enabled. -/
  options : Option RuleOptions
  deriving DecidableEq, Repr

/-- All rules of this library with what is enabled of them. -/
def Registry.listings (registry : Registry) : List Listing :=
  Builtin.all.map fun builtin =>
    ⟨builtin.id.text, builtin.description, (registry.get? builtin.id).map EnabledRule.options⟩

end SelectorLint
