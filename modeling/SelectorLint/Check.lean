import SelectorLint.Path
import SelectorLint.Position
import SelectorLint.Rule.Registry
import SelectorLint.Selector.Assembly

/-!
# Checking one stylesheet

All enabled rules are applied to all style rules of a stylesheet (`Registry.checkSource`). What a rule has against
a selector (`EnabledRule.remarks`) becomes a violation with a file, a position and a severity
(`EnabledRule.check`). A selector that cannot be read is a violation too, but never worse than a warning.
-/

namespace SelectorLint

/-- A place in a file that a rule has something against. -/
structure Violation where
  rule : RuleId
  file : Path
  position : Position
  /-- The byte offset in the file. -/
  offset : Nat
  severity : Severity
  message : String
  /-- The selector that the place belongs to. -/
  selector : String
  deriving DecidableEq, Repr

/-- What a rule has against a place in a selector, before it is known where the selector stands. -/
structure Remark where
  offset : Nat
  severity : Severity
  message : String
  deriving DecidableEq, Repr

/-- What a rule has against the selector of a style rule. -/
def EnabledRule.remarks (rule : EnabledRule) (style : Stylesheet.StyleRule) : List Remark :=
  match Selector.parse style.selector with
  | .error fault =>
    [⟨fault.offset, .warning, "Cannot parse selector (" ++ fault.cause.message ++ ")"⟩]
  | .ok tree =>
    (rule.options.policy.evaluate tree style.selector style.parent).map fun finding =>
      ⟨finding.offset, rule.options.severity, finding.reason.message⟩

/-- The violations of a rule in a style rule of a file. -/
def EnabledRule.check (rule : EnabledRule) (file : Path) (lines : LineIndex)
    (style : Stylesheet.StyleRule) : List Violation :=
  (rule.remarks style).map fun remark =>
    let offset := style.offset + remark.offset
    ⟨rule.id, file, lines.position offset, offset, remark.severity, remark.message, style.selector⟩

/-- The violations in a stylesheet, rule by rule and in the order of the style rules. -/
def Registry.checkSource (registry : Registry) (file : Path) (source : String)
    (dialect : Stylesheet.Dialect) :
    Except (Text.Located Stylesheet.Fault) (List Violation) := do
  let styles ← Stylesheet.parse dialect source
  let lines := LineIndex.ofText source
  return registry.flatMap fun rule => styles.flatMap (rule.check file lines)

end SelectorLint
