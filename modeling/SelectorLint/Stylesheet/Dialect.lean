/-!
# Dialects of stylesheets

Stylesheets are written in CSS or in SCSS. The reader tells them apart only by `//`, which starts a
comment in SCSS (`Dialect.hasLineComments`).
-/

namespace SelectorLint.Stylesheet

/-- The language that a stylesheet is written in. -/
inductive Dialect where
  | css
  | scss
  deriving DecidableEq, Repr

namespace Dialect

/-- The name of a dialect, which is also the extension of its files. -/
def label : Dialect → String
  | css => "css"
  | scss => "scss"

/-- Two slashes start a comment that goes to the end of the line. -/
def hasLineComments : Dialect → Bool
  | css => false
  | scss => true

/-- The dialect with a given name. -/
def ofLabel? (name : String) : Option Dialect := [css, scss].find? fun dialect => dialect.label = name

end Dialect

end SelectorLint.Stylesheet
