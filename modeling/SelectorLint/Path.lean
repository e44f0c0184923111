import SelectorLint.Stylesheet.Dialect

/-!
# Paths

A path is a text, and it is shown as it was written. Two paths are compared by their components (`Path.compare`,
`Path.same`), so that `a//b` and `a/./b` are the same place, and `a/b` comes before `a-b`. The extension of a
path tells which dialect a stylesheet is in (`Path.dialect?`).
-/

namespace SelectorLint

/-- A part of a path between slashes. -/
inductive Component where
  /-- The slash that an absolute path starts with. -/
  | root
  /-- A dot at the start of a path; other dots do not count. -/
  | here
  /-- Two dots. -/
  | up
  | name (text : String)
  deriving DecidableEq, Repr

namespace Component

/-- The rank of a component among those of other sorts. -/
def rank : Component → Nat
  | root => 0
  | here => 1
  | up => 2
  | name _ => 3

/-- Components of different sorts are in the order of their ranks, and names in that of their bytes. -/
def compare : Component → Component → Ordering
  | name first, name second => compareOfLessAndEq first second
  | first, second => Ord.compare first.rank second.rank

end Component

/-- A path, as it is written. -/
structure Path where
  text : String
  deriving DecidableEq, Repr

namespace Path

/-- The pieces of a text between slashes. -/
def splitSlashes : List Char → List (List Char)
  | [] => [[]]
  | '/' :: rest => [] :: splitSlashes rest
  | c :: rest =>
    match splitSlashes rest with
    | [] => [[c]]
    | piece :: pieces => (c :: piece) :: pieces

/-- The component that a piece between slashes stands for, if any. -/
def componentOf (piece : List Char) : Option Component :=
  match piece with
  | [] | ['.'] => none
  | ['.', '.'] => some .up
  | _ => some (.name (String.ofList piece))

/-- The components of a path. -/
def components (path : Path) : List Component :=
  match splitSlashes path.text.toList with
  | [[]] => []
  | [] :: pieces => .root :: pieces.filterMap componentOf
  | ['.'] :: pieces => .here :: pieces.filterMap componentOf
  | pieces => pieces.filterMap componentOf

/-- The order of paths: component by component. -/
def compare (first second : Path) : Ordering :=
  List.compareLex Component.compare first.components second.components

/-- The two paths have the same components. -/
def same (first second : Path) : Bool := first.components = second.components

/-! ## Paths as texts -/

/-- The path of what `rest` leads to from a directory. -/
def join (directory : Path) (rest : String) : Path :=
  match directory.text.toList.getLast? with
  | none | some '/' => ⟨directory.text ++ rest⟩
  | some _ => ⟨directory.text ++ "/" ++ rest⟩

/-- The text of a path without a dot and a slash at its start. -/
def withoutHere (path : Path) : Path :=
  match path.text.toList with
  | '.' :: '/' :: rest => ⟨String.ofList rest⟩
  | _ => path

/-- The text of an entry as seen from a directory. It is a matter of the texts
alone: where the one does not start with the other, or the directory is only a dot, nothing is taken away. -/
def seenFrom (entry directory : Path) : String :=
  let whole := entry.text.toList
  if directory.components = [.here] || !directory.text.toList.isPrefixOf whole then entry.text
  else
    match whole.drop directory.text.length with
    | '/' :: rest => String.ofList rest
    | rest => String.ofList rest

/-! ## File names -/

/-- The last component, if it is a name. -/
def fileName? (path : Path) : Option String :=
  match path.components.getLast? with
  | some (.name text) => some text
  | _ => none

/-- What follows the last dot of a file name. A dot at the start does not count. -/
def extensionOf? (name : String) : Option String :=
  let reversed := name.toList.reverse
  match reversed.dropWhile (· ≠ '.') with
  | [] | ['.'] => none
  | _ :: _ => some (String.ofList (reversed.takeWhile (· ≠ '.')).reverse)

/-- The extension of the file that a path leads to. -/
def extension? (path : Path) : Option String := path.fileName?.bind extensionOf?

/-- The dialect of the stylesheet that a path leads to, by its extension in upper or lower case. -/
def dialect? (path : Path) : Option Stylesheet.Dialect :=
  path.extension?.bind fun extension =>
    Stylesheet.Dialect.ofLabel? (String.ofList (extension.toList.map Char.toLower))

end Path

end SelectorLint
