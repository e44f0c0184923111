/-!
# Data

Values as they stand in a document (`Data`), before anything is known of what they mean. Numbers and dates are
kept apart only by their sort, because nothing that is configured is one.
-/

namespace SelectorLint

/-- A value of a document. -/
inductive Data where
  | null
  | boolean (value : Bool)
  | number
  | date
  | string (text : String)
  | array (items : List Data)
  | table (entries : List (String × Data))
  deriving Repr, Inhabited

namespace Data

/-- The text of a string. -/
def string? : Data → Option String
  | string text => some text
  | _ => none

/-- The texts of an array of strings. -/
def strings? : Data → Option (List String)
  | array items => items.mapM string?
  | _ => none

/-- The value under a key. -/
def lookup (key : String) (entries : List (String × Data)) : Option Data :=
  (entries.find? fun entry => entry.1 = key).map Prod.snd

end Data

end SelectorLint
