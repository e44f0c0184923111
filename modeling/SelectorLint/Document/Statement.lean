import SelectorLint.Document.Quoted
import SelectorLint.Document.Tables

/-!
# Statements of documents

A document is a list of statements: headers of tables, headers of elements of arrays of tables, and values
under keys (`statement?`). Values in brackets and braces are read by `value?`, up to a depth. `Document.parse?`
reads all statements and puts the tables together.
-/

namespace SelectorLint.Document

/-- Values nest less deep than this, and keys have fewer parts. -/
def depthLimit : Nat := 80

/-- One statement of a document. -/
inductive Statement where
  | table (path : List String)
  | element (path : List String)
  | field (path : List String) (data : Data)
  deriving Repr, Inhabited

/-! ## Blanks and keys -/

/-- The text without blanks at its start. -/
def skipBlanks (text : List Char) : List Char := text.dropWhile fun c => c = ' ' || c = '\t'

/-- The text without blanks, line ends and comments at its start. -/
def skipLines (inComment : Bool) : List Char → List Char
  | [] => []
  | c :: rest =>
    if c = '\n' then skipLines false rest
    else if inComment then (if isTextChar c then skipLines true rest else c :: rest)
    else if c = ' ' || c = '\t' then skipLines false rest
    else if c = '#' then skipLines true rest
    else c :: rest

/-- What follows the end of a line. Only blanks and a comment can stand before it. -/
def lineEnd? (text : List Char) : Option (List Char) :=
  let rest := match skipBlanks text with
    | '#' :: comment => comment.dropWhile isTextChar
    | rest => rest
  match rest with
  | [] => some []
  | '\n' :: rest => some rest
  | _ => none

/-- The character can stand in a key that is not quoted. -/
def isKeyChar (c : Char) : Bool := c.isAlphanum || c = '-' || c = '_'

/-- Reads one part of a key, with the blanks around it. -/
def keyPart? (text : List Char) : Option (String × List Char) :=
  match skipBlanks text with
  | '"' :: rest => (doubleTail rest).map fun (name, rest) => (String.ofList name, skipBlanks rest)
  | '\'' :: rest => (singleTail rest).map fun (name, rest) => (String.ofList name, skipBlanks rest)
  | rest =>
    let name := rest.takeWhile isKeyChar
    if name.isEmpty then none else some (String.ofList name, skipBlanks (rest.dropWhile isKeyChar))

/-- Reads a key of at most `parts` parts. -/
def keyParts? : Nat → List Char → Option (List String × List Char)
  | 0, _ => none
  | parts + 1, text => do
    let (name, rest) ← keyPart? text
    match rest with
    | '.' :: rest =>
      let (path, rest) ← keyParts? parts rest
      return (name :: path, rest)
    | rest => return ([name], rest)

/-- Reads a key. -/
def key? (text : List Char) : Option (List String × List Char) := keyParts? (depthLimit - 1) text

/-- Reads a key and the equals sign after it. -/
def assigned? (text : List Char) : Option (List String × List Char) :=
  match key? text with
  | some (path, '=' :: rest) => some (path, skipBlanks rest)
  | _ => none

/-! ## Values -/

/-- The table that fields between braces make up. -/
def inlineTable? (fields : List (List String × Data)) : Option Data :=
  (fields.foldlM (fun entries (path, data) => Entries.insert data path entries) []).map fun entries =>
    .table (Entries.toData entries)

mutual

/-- Reads a value that has at most `depth` levels of brackets and braces. -/
def value? (depth : Nat) (text : List Char) : Option (Data × List Char) :=
  match text, depth with
  | '"' :: _, _ => (quoted? text).map fun (content, rest) => (.string content, rest)
  | '\'' :: _, _ => (quoted? text).map fun (content, rest) => (.string content, rest)
  | '[' :: rest, depth + 1 =>
    (elements? depth rest.length rest).map fun (items, rest) => (.array items, rest)
  | '{' :: rest, depth + 1 =>
    match skipBlanks rest with
    | '}' :: rest => some (.table [], rest)
    | inner => do
      let (fields, rest) ← fields? depth inner.length inner
      let table ← inlineTable? fields
      return (table, rest)
  | _, _ => bareValue? text
termination_by (depth, 0)

/-- Reads the rest of an array of at most `count` values. -/
def elements? (depth count : Nat) (text : List Char) : Option (List Data × List Char) :=
  match count, skipLines false text with
  | 0, _ => none
  | _ + 1, ']' :: rest => some ([], rest)
  | count + 1, inner => do
    let (item, rest) ← value? depth inner
    match skipLines false rest with
    | ',' :: rest =>
      let (items, rest) ← elements? depth count rest
      return (item :: items, rest)
    | ']' :: rest => return ([item], rest)
    | _ => none
termination_by (depth, count)

/-- Reads the rest of a table between braces, of at most `count` fields. -/
def fields? (depth count : Nat) (text : List Char) :
    Option (List (List String × Data) × List Char) :=
  match count with
  | 0 => none
  | count + 1 => do
    let (path, rest) ← assigned? text
    let (data, rest) ← value? depth rest
    match skipBlanks rest with
    | ',' :: rest =>
      let (fields, rest) ← fields? depth count rest
      return ((path, data) :: fields, rest)
    | '}' :: rest => return ([(path, data)], rest)
    | _ => none
termination_by (depth, count)

end

/-! ## Statements -/

/-- Reads the statement at the start of a line. -/
def statement? (text : List Char) : Option (Statement × List Char) :=
  match text with
  | '[' :: '[' :: rest =>
    match key? rest with
    | some (path, ']' :: ']' :: rest) => (lineEnd? rest).map fun rest => (.element path, rest)
    | _ => none
  | '[' :: rest =>
    match key? rest with
    | some (path, ']' :: rest) => (lineEnd? rest).map fun rest => (.table path, rest)
    | _ => none
  | _ => do
    let (path, rest) ← assigned? text
    let (data, rest) ← value? (depthLimit - 1) rest
    let rest ← lineEnd? rest
    return (.field path data, rest)

/-- Reads at most `count` statements, and the whole text. -/
def statements? : Nat → List Char → Option (List Statement)
  | count, text =>
    match count, skipLines false text with
    | _, [] => some []
    | 0, _ => none
    | count + 1, inner => do
      let (statement, rest) ← statement? inner
      let statements ← statements? count rest
      return statement :: statements

/-! ## Documents -/

/-- The tables read so far, and the path of the one that was opened last. -/
structure Draft where
  current : List String
  entries : Entries
  deriving Repr, Inhabited

/-- What a statement adds to a document. -/
def Draft.take? (draft : Draft) : Statement → Option Draft
  | .table path => (draft.entries.openTable path).map (⟨path, ·⟩)
  | .element path => (draft.entries.openElement path).map (⟨path, ·⟩)
  | .field path data =>
    (draft.entries.modify (Entries.insert data path) draft.current).map (⟨draft.current, ·⟩)

/-- The text with single line feeds as line ends. -/
def unifyLines : List Char → List Char
  | [] => []
  | '\r' :: '\n' :: rest => '\n' :: unifyLines rest
  | c :: rest => c :: unifyLines rest

/-- The text without a byte order mark at its start. -/
def dropMark : List Char → List Char
  | '\uFEFF' :: rest => rest
  | text => text

/-- The table that a document stands for. -/
def parse? (text : String) : Option Data := do
  let inner := unifyLines (dropMark text.toList)
  let statements ← statements? inner.length inner
  let draft ← statements.foldlM Draft.take? ⟨[], []⟩
  return .table (Entries.toData draft.entries)

end SelectorLint.Document
