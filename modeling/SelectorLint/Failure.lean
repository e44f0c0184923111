import SelectorLint.Config
import SelectorLint.Outcome
import SelectorLint.Project.Discovery
import SelectorLint.Rule.Registry

/-!
# Failures

Everything that can keep a check from being made (`Failure`), with its wording (`Failure.message`).
-/

namespace SelectorLint

/-- Why a check cannot be made. -/
inductive Failure where
  | config (problem : Config.Problem)
  | rule (problem : RuleProblem)
  | discovery (problem : DiscoveryProblem)
  | parse (failure : ParseFailure)
  | input (reason : String)
  deriving DecidableEq, Repr

/-- The wording of a failure. -/
def Failure.message : Failure → String
  | config problem => "Configuration error: " ++ problem.message
  | rule problem => "Rule error: " ++ problem.message
  | discovery problem => "File walker error: " ++ problem.message
  | parse failure =>
    "Parse error in " ++ failure.file.text ++ ": " ++ failure.message ++ " at offset "
      ++ toString failure.offset
  | input reason => "I/O error: " ++ reason

end SelectorLint
