import SelectorLint.Selector.Tree
import SelectorLint.Stylesheet.Scan

/-!
# The nesting policy

What a selector may look like. Under `always`, combinators and chained compounds have to be written as
nested rules. Under `never`, a rule inside another style rule may not have a selector at all.

`shouldNest` looks at a node and its two neighbours, `againstFlat` adds the exceptions, and `evaluate` collects
what the policy has against a whole tree, or only the last of it.
-/

namespace SelectorLint

open Selector

/-- Whether nesting is asked for or forbidden. -/
inductive Expectation where
  | always
  | never
  deriving DecidableEq, Repr

namespace Expectation

/-- The name of an expectation. -/
def label : Expectation → String
  | always => "always"
  | never => "never"

/-- The expectation with a given name. -/
def ofLabel? (name : String) : Option Expectation :=
  [always, never].find? fun expectation => expectation.label = name

end Expectation

/-- How many findings of a selector are reported. -/
inductive ReportMode where
  | each
  /-- Only the last one. -/
  | last
  deriving DecidableEq, Repr

namespace ReportMode

/-- The name of a report mode. -/
def label : ReportMode → String
  | each => "each"
  | last => "last"

/-- The report mode with a given name. -/
def ofLabel? (name : String) : Option ReportMode :=
  [each, last].find? fun mode => mode.label = name

end ReportMode

/-- What the policy has against a node. -/
inductive Reason where
  | expectedInterpolation
  | expected (value : String) (kind : Kind)
  | rejected
  deriving DecidableEq, Repr

/-- The wording of a reason. -/
def Reason.message : Reason → String
  | expectedInterpolation => "Expected interpolation to be in a nested form"
  | expected value kind =>
    "Expected combinator \"" ++ value ++ "\" of type \"" ++ kind.label ++ "\" to be in a nested form"
  | rejected => "Unexpected nesting found in selector"

/-- A node that the policy has something against. -/
structure Finding where
  reason : Reason
  /-- The byte offset of the node in the selector. -/
  offset : Nat
  deriving DecidableEq, Repr

/-- The text ends in an interpolation on one line that is not empty: `#{`, some characters, and the
closing brace as the last character of the text. -/
def endsInInterpolation : List Char → Bool
  | [] => false
  | c :: rest => startsHere c rest || endsInInterpolation rest
where
  /-- The interpolation starts with the character `c`. -/
  startsHere (c : Char) (rest : List Char) : Bool :=
    match c, rest with
    | '#', '{' :: inner => 2 ≤ inner.length && inner.getLast? = some '}' && !inner.contains '\n'
    | _, _ => false

/-- An expectation and how its findings are reported. -/
structure Policy where
  expectation : Expectation
  report : ReportMode
  deriving DecidableEq, Repr

namespace Policy

/-- The node is there and is one simple selector of a compound. -/
def isChaining (tree : Tree) (id : Option Nat) : Bool :=
  match id.bind tree.kind? with
  | some kind => kind.isChaining
  | none => false

/-- A later sibling of the node is a nesting sign. -/
def precedesNesting (tree : Tree) (id : Nat) : Bool :=
  (tree.following id).any fun sibling =>
    match tree.nodes[sibling]? with
    | some node => node.kind = .nesting
    | none => false

/-- The node should be nested: it is a combinator between two simple selectors, or it is a simple
selector right after another one, unless the selector ends in an interpolation. -/
def shouldNest (tree : Tree) (id : Nat) (interpolated : Bool) : Bool :=
  match tree.kind? id with
  | some .combinator =>
    isChaining tree (tree.previous? id) && isChaining tree (tree.next? id)
  | some kind => kind.isChaining && isChaining tree (tree.previous? id) && !interpolated
  | none => false

/-- What `always` has against a node. -/
def againstFlat (tree : Tree) (visit : Visit) (node : Node) (interpolated : Bool) : Option Reason :=
  if visit.enclosing ≠ .argument && shouldNest tree visit.id interpolated
      && !precedesNesting tree visit.id then
    some (if interpolated then .expectedInterpolation else .expected node.value node.kind)
  else none

/-- What an expectation has against a node. A node that is only a closing brace never counts. -/
def reasonAgainst (expectation : Expectation) (tree : Tree) (visit : Visit) (node : Node)
    (interpolated : Bool) : Option Reason :=
  if node.value = "\x7d" then none
  else
    match expectation with
    | .always => againstFlat tree visit node interpolated
    | .never => some .rejected

/-- The finding at a node, if there is one. -/
def findingAt (expectation : Expectation) (tree : Tree) (interpolated : Bool) (visit : Visit) :
    Option Finding := do
  let node ← tree.nodes[visit.id]?
  let reason ← reasonAgainst expectation tree visit node interpolated
  return ⟨reason, node.offset⟩

/-- All findings of a selector in document order. The tree is that of the text `selector`. -/
def findings (expectation : Expectation) (tree : Tree) (selector : String)
    (parent : Stylesheet.Parent) : List Finding :=
  if expectation = .never && parent.isTopLevel then []
  else
    tree.walk.filterMap (findingAt expectation tree (endsInInterpolation selector.toList))

/-- The findings of a selector that are reported. -/
def evaluate (policy : Policy) (tree : Tree) (selector : String) (parent : Stylesheet.Parent) :
    List Finding :=
  let all := findings policy.expectation tree selector parent
  match policy.report with
  | .each => all
  | .last => all.getLast?.toList

end Policy

end SelectorLint
