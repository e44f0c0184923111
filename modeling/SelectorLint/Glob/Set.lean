import SelectorLint.Glob.Expression

/-!
# Sets of globs

The globs of a set are prepared before any of them is matched (`Glob.preparation`). Those that only ask how a path
starts or ends need no expression; those with a fixed extension at their end are compiled one by one; all others
are compiled together. A glob whose expression is nested too deep makes the whole set useless (`setFault?`).
-/

namespace SelectorLint.Glob

/-- The character that a token stands for. -/
def Token.literal? : Token → Option Char
  | .literal c => some c
  | _ => none

/-- The text that tokens stand for, if they are all characters. -/
def literalText? (tokens : List Token) : Option (List Char) := tokens.mapM Token.literal?

/-- The glob asks only how a path starts: it has characters, and after them perhaps a star that also stands for
slashes, or any directories. -/
def asksStart (glob : Glob) : Bool :=
  match glob.tokens.reverse with
  | .trailingTree :: before => (literalText? before).isSome
  | .anyRun :: before => !glob.separated && !before.isEmpty && (literalText? before).isSome
  | tokens => !tokens.isEmpty && (literalText? tokens).isSome

/-- The tokens after any directories and a star at the start, and a slash before them if the directories stand
right before a character. -/
def ending (glob : Glob) : List Token :=
  let afterStar : List Token → List Token
    | .anyRun :: rest => if glob.separated then .anyRun :: rest else rest
    | tokens => tokens
  match glob.tokens with
  | .leadingTree :: .literal c :: rest => .literal '/' :: .literal c :: rest
  | .leadingTree :: rest => afterStar rest
  | tokens => afterStar tokens

/-- The glob asks only how a path ends. -/
def asksEnd (glob : Glob) : Bool :=
  match literalText? glob.ending with
  | none | some [] | some ['/'] => false
  | some _ => true

/-- The glob ends in a fixed extension. -/
def hasExtension (glob : Glob) : Bool :=
  let last := glob.tokens.reverse.map Token.literal?
  let inName := last.takeWhile fun c => c.isSome && c != some '.' && c != some '/'
  last.drop inName.length |>.head? |>.any (· = some '.')

/-- How a glob of a set is prepared. -/
inductive Preparation where
  /-- The glob needs no expression. -/
  | plain
  | alone
  | together
  deriving DecidableEq, Repr

/-- How the glob is prepared. -/
def preparation (glob : Glob) : Preparation :=
  if glob.asksStart || glob.asksEnd then .plain
  else if glob.hasExtension then .alone
  else .together

/-- Why a set of globs cannot be used. -/
inductive SetFault where
  /-- The expression of a glob that is compiled alone is nested too deep. -/
  | tooDeep (expression : String)
  /-- Of the globs that are compiled together, the one at a position is nested too deep. -/
  | tooDeepAt (position : Nat)
  deriving DecidableEq, Repr

/-- The wording of a fault. -/
def SetFault.message : SetFault → String
  | tooDeep expression => "error parsing glob '" ++ expression ++ "': error parsing pattern 0"
  | tooDeepAt position => "error parsing pattern " ++ toString position

/-- The fault of a set of globs, if it has one. -/
def setFault? (globs : List Glob) : Option SetFault :=
  let prepared (preparation : Preparation) := globs.filter fun glob => glob.preparation = preparation
  (((prepared .alone).find? isTooDeep).map fun glob => .tooDeep glob.expressionText)
    <|> ((prepared .together).findIdx? isTooDeep).map .tooDeepAt

end SelectorLint.Glob
