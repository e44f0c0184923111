import SelectorLint.Glob.Pattern

/-!
# Expressions of globs

A glob stands for a regular expression over the bytes of a path (`Glob.expression`). The expression has few forms:
one byte, one byte that may be missing, a run of bytes, and a choice between sequences of these. Its text is shown
to users when it is nested too deep (`Glob.expressionText`), and its depth says when that is so (`Glob.isTooDeep`).
-/

namespace SelectorLint.Glob

/-- The byte of a slash. -/
def slash : UInt8 := 47

/-- The bytes of a character in UTF-8. -/
def bytesOf (c : Char) : List UInt8 := String.utf8EncodeChar c

/-- What a byte may be. -/
inductive ByteSet where
  | only (byte : UInt8)
  | any
  /-- A byte in one of the ranges, or in none of them. -/
  | within (negated : Bool) (ranges : List (UInt8 × UInt8))
  deriving DecidableEq, Repr

/-- A part of a regular expression. -/
inductive Expression where
  | one (bytes : ByteSet)
  /-- One byte or nothing. -/
  | optional (bytes : ByteSet)
  /-- Any number of bytes. -/
  | run (bytes : ByteSet)
  /-- One of several sequences. -/
  | choice (branches : List (List Expression))
  deriving Repr, Inhabited

/-! ## The expression of a glob -/

/-- The ranges of bytes that a range of characters stands for. The bytes of its two ends are written one
after the other with a hyphen between, so that only the bytes next to the hyphen make a range. -/
def byteRanges (range : Char × Char) : List (UInt8 × UInt8) :=
  if range.1 = range.2 then (bytesOf range.1).map fun byte => (byte, byte)
  else
    let first := (bytesOf range.1).reverse
    let last := bytesOf range.2
    match first, last with
    | low :: before, high :: after =>
      before.reverse.map (fun byte => (byte, byte)) ++ (low, high) :: after.map fun byte => (byte, byte)
    | _, _ => []

/-- What `?` stands for, and each byte of what `*` stands for. -/
def wildcard (separated : Bool) : ByteSet := if separated then .within true [(slash, slash)] else .any

/-- The expression of a slash. -/
def oneSlash : Expression := .one (.only slash)

mutual

/-- The expression of a token, as a sequence. Alternatives that are all empty stand for nothing. -/
def Token.expression (separated : Bool) : Token → List Expression
  | .literal c => (bytesOf c).map fun byte => .one (.only byte)
  | .anyByte => [.one (wildcard separated)]
  | .anyRun => [.run (wildcard separated)]
  | .leadingTree => [.choice [[.optional (.only slash)], [.run .any, oneSlash]]]
  | .trailingTree => [oneSlash, .run .any]
  | .innerTree => [.choice [[oneSlash], [oneSlash, .run .any, oneSlash]]]
  | .oneOf negated ranges => [.one (.within negated (ranges.flatMap byteRanges))]
  | .alternatives branches =>
    match expressionOfEach separated branches with
    | [] => []
    | choices => [.choice choices]

/-- The expression of a list of tokens. -/
def expressionOf (separated : Bool) : List Token → List Expression
  | [] => []
  | token :: tokens => token.expression separated ++ expressionOf separated tokens

/-- The expressions of alternatives, without empty ones. -/
def expressionOfEach (separated : Bool) : List (List Token) → List (List Expression)
  | [] => []
  | branch :: branches =>
    match expressionOf separated branch with
    | [] => expressionOfEach separated branches
    | expression => expression :: expressionOfEach separated branches

end

/-- The expression of a glob. Two stars alone stand for anything. -/
def expression (glob : Glob) : List Expression :=
  match glob.tokens with
  | [.leadingTree] => [.run .any]
  | tokens => expressionOf glob.separated tokens

/-! ## The text of an expression -/

/-- The characters that have a meaning of their own in expressions. -/
def metaCharacters : List Char := "\\.+*?()|[]\x7b\x7d^$#&-~".toList

/-- A byte that stands for itself. -/
def byteText (byte : UInt8) : String :=
  if byte < 128 then
    let c := Char.ofNat byte.toNat
    if metaCharacters.contains c then "\\" ++ c.toString else c.toString
  else "\\x" ++ String.ofList (Nat.toDigits 16 byte.toNat)

/-- The text of a range of bytes. -/
def rangeText (range : UInt8 × UInt8) : String :=
  if range.1 = range.2 then byteText range.1 else byteText range.1 ++ "-" ++ byteText range.2

/-- The text of a set of bytes. -/
def ByteSet.text : ByteSet → String
  | only byte => byteText byte
  | any => "."
  | within negated ranges =>
    (if negated then "[^" else "[") ++ String.join (ranges.map rangeText) ++ "]"

mutual

/-- The text of an expression. -/
def Expression.text : Expression → String
  | .one bytes => bytes.text
  | .optional bytes => bytes.text ++ "?"
  | .run bytes => bytes.text ++ "*"
  | .choice branches => "(?:" ++ choiceText branches ++ ")"

/-- The text of a sequence of expressions. -/
def sequenceText : List Expression → String
  | [] => ""
  | expression :: rest => expression.text ++ sequenceText rest

/-- The texts of sequences with bars between. -/
def choiceText : List (List Expression) → String
  | [] => ""
  | [branch] => sequenceText branch
  | branch :: rest => sequenceText branch ++ "|" ++ choiceText rest

end

/-- The text of the expression of a whole glob. -/
def expressionText (glob : Glob) : String := "(?-u)^" ++ sequenceText glob.expression ++ "$"

/-! ## The depth of an expression -/

/-- How deep a set of bytes is nested. -/
def ByteSet.depth : ByteSet → Nat
  | only _ => 0
  | any => 0
  | within _ ranges => if ranges.length ≤ 1 then 1 else 2

/-- A level is added for a list of more than one part. -/
def level {Part : Type} (parts : List Part) : Nat := if parts.length ≤ 1 then 0 else 1

mutual

/-- How deep an expression is nested. -/
def Expression.depth : Expression → Nat
  | .one bytes => bytes.depth
  | .optional bytes => bytes.depth + 1
  | .run bytes => bytes.depth + 1
  | .choice branches => choiceDepth branches + level branches + 1

/-- The depth of the deepest of some expressions. -/
def sequenceDepth : List Expression → Nat
  | [] => 0
  | expression :: rest => max expression.depth (sequenceDepth rest)

/-- The depth of the deepest of some sequences. -/
def choiceDepth : List (List Expression) → Nat
  | [] => 0
  | branch :: rest => max (sequenceDepth branch + level branch) (choiceDepth rest)

end

/-- How deep the expression of a glob may be nested. -/
def depthLimit : Nat := 250

/-- The expression of the glob is nested too deep. It is a sequence that also has the two ends of the path. -/
def isTooDeep (glob : Glob) : Bool := depthLimit < sequenceDepth glob.expression + 1

end SelectorLint.Glob
