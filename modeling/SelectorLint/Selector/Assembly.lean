import SelectorLint.Selector.Lexeme

/-!
# From lexemes to selector trees

The lexemes of a selector are taken one after the other (`Assembly.take`), and each adds to a tree that is being
built (`Assembly`). Three rules are at work.

* White space is a combinator only between two components (`Assembly.joinSpace`). Where it stands is remembered,
  together with the comments after it, until the next component or combinator decides.
* A group gets its node with its first child, at the offset of that child (`Assembly.add`).
* The arguments of a pseudo-class are groups under its node (`Assembly.openArguments`). The groups that are open
  around them wait in `Assembly.outer`.

`Assembly.finish` is the end of the text, and `parse` reads a whole selector.
-/

namespace SelectorLint.Selector

open Text

/-- How far a group has been read. -/
inductive Phase where
  /-- There is neither a component nor a combinator yet. -/
  | start
  | afterCombinator
  | afterComponent
  /-- After a component there was white space, and then these comments. -/
  | spaced (blank : Placed Char) (comments : List (Placed Part))
  deriving DecidableEq, Repr

/-- A list of groups that is being read. -/
structure Level where
  /-- The node that the groups belong to: the root or a pseudo-class. -/
  parent : Nat
  /-- The group that is being read, once it has a node. -/
  group : Option Nat
  phase : Phase
  deriving DecidableEq, Repr

/-- A list of groups of which nothing has been read. -/
def Level.new (parent : Nat) : Level := ⟨parent, none, .start⟩

/-- A level that waits for the end of the arguments that were opened in it. -/
structure Waiting where
  level : Level
  /-- The offset of the parenthesis. -/
  opened : Nat
  deriving DecidableEq, Repr

/-- A tree that is being built. -/
structure Assembly where
  tree : Tree
  level : Level
  /-- The levels around this one, the nearest first. -/
  outer : List Waiting
  deriving DecidableEq

namespace Assembly

/-- Before the first lexeme. -/
def new : Assembly := ⟨.empty, .new 0, []⟩

/-- Adds a node to the group that is being read, after the node of the group if there is none yet. -/
def add (assembly : Assembly) (part : Placed Part) : Assembly :=
  match assembly.level.group with
  | some group =>
    { assembly with tree := assembly.tree.append group part.piece.kind part.piece.value part.offset }
  | none =>
    let group := assembly.tree.size
    let opened := assembly.tree.append assembly.level.parent .selector "" part.offset
    { assembly with
      tree := opened.append group part.piece.kind part.piece.value part.offset
      level := { assembly.level with group := some group } }

/-- Enters a phase of the group. -/
def enter (assembly : Assembly) (phase : Phase) : Assembly :=
  { assembly with level := { assembly.level with phase } }

/-- Adds the comments that waited for the end of white space. -/
def addComments (assembly : Assembly) : Assembly :=
  match assembly.level.phase with
  | .spaced _ comments => comments.foldl add assembly
  | _ => assembly

/-- White space in a group. -/
def takeBlank (assembly : Assembly) (blank : Placed Char) : Assembly :=
  match assembly.level.phase with
  | .afterComponent => assembly.enter (.spaced blank [])
  | _ => assembly

/-- A comment in a group: after white space that may yet become a combinator it has to wait. -/
def takeComment (assembly : Assembly) (comment : Placed Part) : Assembly :=
  match assembly.level.phase with
  | .spaced blank comments => assembly.enter (.spaced blank (comments ++ [comment]))
  | _ => assembly.add comment

/-- A combinator, which may not follow another one. -/
def takeCombinator (assembly : Assembly) (sign : Placed Sign) :
    Except (Located Fault) Assembly :=
  match assembly.level.phase with
  | .afterCombinator => .error ⟨sign.offset, .unexpectedCombinator sign.piece.mark⟩
  | _ => .ok <|
    (assembly.addComments.add ⟨sign.offset, .combinator sign.piece⟩).enter .afterCombinator

/-- The white space before a component becomes a combinator if a component stands before it too. -/
def joinSpace (assembly : Assembly) : Assembly :=
  match assembly.level.phase with
  | .spaced blank _ => assembly.add ⟨blank.offset, .descendant blank.piece⟩
  | _ => assembly

/-- A component of a group. -/
def takeComponent (assembly : Assembly) (part : Placed Part) : Assembly :=
  (assembly.joinSpace.addComments.add part).enter .afterComponent

/-- The end of a group, at a comma, a parenthesis or the end of the text. -/
def endGroup (assembly : Assembly) (offset : Nat) : Except (Located Fault) Assembly :=
  match assembly.level.group with
  | none => .error ⟨offset, .expectedSelector⟩
  | some _ => .ok { assembly.addComments with level := .new assembly.level.parent }

/-- A pseudo-class with a parenthesis: its arguments are read next. -/
def openArguments (assembly : Assembly) (offset : Nat) (double : Bool) (name : List Char) :
    Assembly :=
  let pseudo := Part.pseudo double name
  let added := assembly.takeComponent ⟨offset, pseudo⟩
  { added with
    level := .new (added.tree.size - 1)
    outer := ⟨added.level, offset + byteLength pseudo.text⟩ :: added.outer }

/-- A closing parenthesis. It ends the last group of the arguments, unless there are none at all. -/
def closeArguments (assembly : Assembly) (offset : Nat) : Except (Located Fault) Assembly :=
  match assembly.outer with
  | [] => .error ⟨offset, .unexpectedCharacter ')'⟩
  | waiting :: outer =>
    if assembly.level.group = none && (assembly.tree.children assembly.level.parent).isEmpty then
      .ok { assembly with level := waiting.level, outer }
    else (assembly.endGroup offset).map fun ended => { ended with level := waiting.level, outer }

/-- One lexeme. -/
def take (assembly : Assembly) (lexeme : Placed Lexeme) : Except (Located Fault) Assembly :=
  match lexeme.piece with
  | .blank c => .ok (assembly.takeBlank ⟨lexeme.offset, c⟩)
  | .comma => assembly.endGroup lexeme.offset
  | .close => assembly.closeArguments lexeme.offset
  | .call double name => .ok (assembly.openArguments lexeme.offset double name)
  | .part (.combinator sign) => assembly.takeCombinator ⟨lexeme.offset, sign⟩
  | .part (.comment tail) => .ok (assembly.takeComment ⟨lexeme.offset, .comment tail⟩)
  | .part part => .ok (assembly.takeComponent ⟨lexeme.offset, part⟩)

/-- The end of the text. -/
def finish (assembly : Assembly) (offset : Nat) : Except (Located Fault) Tree := do
  let ended ← assembly.endGroup offset
  match ended.outer with
  | [] => .ok ended.tree
  | waiting :: _ => .error ⟨waiting.opened, .unclosedArgument⟩

end Assembly

/-- Puts the lexemes of a text together. A trouble of the lexing counts only after the lexemes before
it. -/
def assemble (lexing : Lexing Lexeme Fault) : Except (Located Fault) Tree := do
  let assembly ← (placed Lexeme.text 0 lexing.pieces).foldlM Assembly.take Assembly.new
  let offset := byteLength (written Lexeme.text lexing.pieces)
  match lexing.trouble with
  | some trouble => .error (trouble.locate offset)
  | none => assembly.finish offset

/-- The tree of a selector list. -/
def parse (selector : String) : Except (Located Fault) Tree := assemble (lexemes selector.toList)

end SelectorLint.Selector
