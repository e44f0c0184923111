import SelectorLint.Text.Alphanumeric

/-!
# Rule ids

A rule has an id such as `scss/selector-nest-combinators`: letters, digits, hyphens and underscores, with
at most one slash, which stands inside (`isRuleId`). The type `RuleId` carries this.
-/

namespace SelectorLint

open Text

/-- The characters of a rule id besides the slash. -/
def isRuleIdCharacter (c : Char) : Bool := isAlphanumeric c || c = '-' || c = '_'

/-- The text is a rule id. -/
def isRuleId (text : String) : Bool :=
  let characters := text.toList
  characters ≠ [] && characters.count '/' ≤ 1 && characters.head? ≠ some '/'
    && characters.getLast? ≠ some '/'
    && characters.all fun c => isRuleIdCharacter c || c = '/'

/-- A rule id. -/
structure RuleId where
  text : String
  valid : isRuleId text = true
  deriving DecidableEq, Repr

namespace RuleId

/-- The rule id that a text is. -/
def ofString? (text : String) : Option RuleId :=
  if h : isRuleId text then some ⟨text, h⟩ else none

/-- What stands before the slash. -/
def group? (id : RuleId) : Option String :=
  let characters := id.text.toList
  if characters.contains '/' then some (String.ofList (characters.takeWhile (· ≠ '/'))) else none

/-- The text of the id that a rule of this library has by its name. -/
def qualified (name : String) : String := "scss/" ++ name

/-- Rule ids are in the order of their texts. -/
def compare (first second : RuleId) : Ordering := compareOfLessAndEq first.text second.text

end RuleId

end SelectorLint
