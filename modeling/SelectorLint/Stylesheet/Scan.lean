import SelectorLint.Stylesheet.Lexeme
import SelectorLint.Text.Alphanumeric

/-!
# Style rules of a stylesheet

The lexemes of a stylesheet are taken one after the other (`Scan.take`). What stands before a brace, from the first
significant lexeme on, is the heading of a block, and the heading decides which sort of block it is
(`Block.ofHeading`). An opening brace begins a block with the statement before it as heading (`Scan.openBlock`), and
a closing one ends the innermost block (`Scan.closeBlock`). The style rules come out in the order of their braces.

`Scan.finish` is the end of the text, and `parse` reads a whole stylesheet.
-/

namespace SelectorLint.Stylesheet

open Text

/-- What a style rule stands directly in. -/
inductive Parent where
  | root
  | atRule (name : String)
  /-- Another style rule, or a block of nested properties. -/
  | rule
  deriving DecidableEq, Repr

/-- A rule with this parent is outside every style rule. -/
def Parent.isTopLevel : Parent → Bool
  | root | atRule _ => true
  | rule => false

/-- A selector with a block. -/
structure StyleRule where
  /-- The text of the selector, without white space around it. -/
  selector : String
  /-- The byte offset of the selector in the stylesheet. -/
  offset : Nat
  parent : Parent
  /-- The number of style rules around it. -/
  depth : Nat
  deriving DecidableEq, Repr

/-- The sorts of blocks. -/
inductive Block where
  | atRule (name : String)
  | rule
  /-- Nested properties, such as `font: { family: serif }`. -/
  | property
  deriving DecidableEq, Repr

/-- The characters in the name of an at-rule. -/
def isNameCharacter (c : Char) : Bool := isAlphanumeric c || c = '-' || c = '_'

/-- The sort of block that has this heading. -/
def Block.ofHeading (heading : List Char) : Block :=
  match heading with
  | '@' :: rest => .atRule (String.ofList (rest.takeWhile isNameCharacter))
  | _ => if heading.getLast? = some ':' then .property else .rule

/-- What the rules in a block have for a parent. -/
def Block.asParent : Block → Parent
  | atRule name => .atRule name
  | rule | property => .rule

/-- A stylesheet of which a part has been read. -/
structure Scan where
  /-- The statement that has begun: where it starts, and its lexemes, the latest first. -/
  statement : Option (Placed (List Lexeme))
  /-- The open blocks with the offsets of their braces, the innermost first. -/
  blocks : List (Placed Block)
  rules : List StyleRule
  deriving DecidableEq, Repr

namespace Scan

/-- Before the first lexeme. -/
def new : Scan := ⟨none, [], []⟩

/-- A lexeme of a statement, or one that stands between statements. -/
def extend (scan : Scan) (lexeme : Placed Lexeme) : Scan :=
  match scan.statement with
  | some statement =>
    { scan with statement := some { statement with piece := lexeme.piece :: statement.piece } }
  | none =>
    if lexeme.piece.isSignificant then
      { scan with statement := some ⟨lexeme.offset, [lexeme.piece]⟩ }
    else scan

/-- The heading that the lexemes of a statement make up; the latest comes first. -/
def heading (lexemes : List Lexeme) : List Char := trimEnd (lexemes.reverse.flatMap Lexeme.masked)

/-- What a rule that is opened now stands in. -/
def parent (scan : Scan) : Parent :=
  match scan.blocks with
  | [] => .root
  | block :: _ => block.piece.asParent

/-- The number of style rules that are open. -/
def depth (scan : Scan) : Nat := scan.blocks.countP fun block => block.piece = .rule

/-- An opening brace. -/
def openBlock (scan : Scan) (offset : Nat) : Except (Located Fault) Scan :=
  match scan.statement with
  | none => .error ⟨offset, .missingHeading⟩
  | some statement =>
    let text := heading statement.piece
    let block := Block.ofHeading text
    let rules :=
      if block = .rule then
        scan.rules ++ [⟨String.ofList text, statement.offset, scan.parent, scan.depth⟩]
      else scan.rules
    .ok ⟨none, ⟨offset, block⟩ :: scan.blocks, rules⟩

/-- A closing brace. It also ends a statement without a semicolon. -/
def closeBlock (scan : Scan) (offset : Nat) : Except (Located Fault) Scan :=
  match scan.blocks with
  | [] => .error ⟨offset, .unexpectedClose⟩
  | _ :: blocks => .ok { scan with statement := none, blocks }

/-- One lexeme. -/
def take (scan : Scan) (lexeme : Placed Lexeme) : Except (Located Fault) Scan :=
  match lexeme.piece with
  | .openBrace => scan.openBlock lexeme.offset
  | .closeBrace => scan.closeBlock lexeme.offset
  | .semicolon => .ok { scan with statement := none }
  | _ => .ok (scan.extend lexeme)

/-- The end of the text. -/
def finish (scan : Scan) : Except (Located Fault) (List StyleRule) :=
  match scan.blocks with
  | [] => .ok scan.rules
  | block :: _ => .error ⟨block.offset, .unclosedBlock⟩

end Scan

/-- Finds the style rules among the lexemes of a text. A trouble of the lexing counts only after the
lexemes before it. -/
def collect (lexing : Lexing Lexeme Fault) : Except (Located Fault) (List StyleRule) := do
  let scan ← (placed Lexeme.text 0 lexing.pieces).foldlM Scan.take Scan.new
  match lexing.trouble with
  | some trouble => .error (trouble.locate (byteLength (written Lexeme.text lexing.pieces)))
  | none => scan.finish

/-- The style rules of a stylesheet, in order. -/
def parse (dialect : Dialect) (source : String) : Except (Located Fault) (List StyleRule) :=
  collect (lexemes dialect source.toList)

end SelectorLint.Stylesheet
