import SelectorLint.Path

/-!
# The files of a project

A project is a set of files and directories under a directory of its own. Paths lead from that directory to
an entry (`Project.locate`); what is outside of it cannot be reached. `Project.read` gives the text of a file, and
`Project.write` puts one into the directory of the project.
-/

namespace SelectorLint

/-- What can stand at a place in a project. -/
inductive Entry where
  | file (content : ByteArray)
  | directory
  deriving Inhabited

/-- The entry is a directory. -/
def Entry.isDirectory : Entry → Bool
  | file _ => false
  | directory => true

/-- A place in a project: the names of the directories that lead to it, and its own. -/
abbrev Location := List String

/-- Why something cannot be done with a file. -/
inductive FileFault where
  | notFound
  | notDirectory
  | isDirectory
  | notText
  deriving DecidableEq, Repr

/-- The wording of a fault. -/
def FileFault.message : FileFault → String
  | notFound => "No such file or directory (os error 2)"
  | notDirectory => "Not a directory (os error 20)"
  | isDirectory => "Is a directory (os error 21)"
  | notText => "stream did not contain valid UTF-8"

/-- The entries of a project. All directories that lead to an entry are entries too, except for the directory
of the project itself. -/
structure Project where
  entries : List (Location × Entry)
  deriving Inhabited

namespace Project

/-- A project without files. -/
def empty : Project := ⟨[]⟩

/-- The entry at a place. -/
def entryAt? (project : Project) (location : Location) : Option Entry :=
  if location.isEmpty then some .directory
  else (project.entries.find? fun entry => entry.1 = location).map Prod.snd

/-! ## Paths -/

/-- One step along a path. It starts at a directory, also if it leads nowhere else. -/
def step (project : Project) (location : Location) (piece : List Char) : Except FileFault Location :=
  match project.entryAt? location with
  | none => .error .notFound
  | some (.file _) => .error .notDirectory
  | some .directory =>
    match piece with
    | [] | ['.'] => .ok location
    | ['.', '.'] => if location.isEmpty then .error .notFound else .ok location.dropLast
    | _ =>
      let next := location ++ [String.ofList piece]
      if (project.entryAt? next).isSome then .ok next else .error .notFound

/-- The place that a path leads to. -/
def locate (project : Project) (path : Path) : Except FileFault Location :=
  match Path.splitSlashes path.text.toList with
  | [[]] | [] :: _ => .error .notFound
  | pieces => pieces.foldlM project.step []

/-- The path leads to an entry. -/
def contains (project : Project) (path : Path) : Bool := (project.locate path).isOk

/-! ## Reading and writing -/

/-- The content of the file that a path leads to. -/
def readBytes (project : Project) (path : Path) : Except FileFault ByteArray := do
  let location ← project.locate path
  match project.entryAt? location with
  | some (.file content) => .ok content
  | some .directory => .error .isDirectory
  | none => .error .notFound

/-- The text of the file that a path leads to. -/
def read (project : Project) (path : Path) : Except FileFault String := do
  let content ← project.readBytes path
  match String.fromUTF8? content with
  | some text => .ok text
  | none => .error .notText

/-- Puts an entry at a place. -/
def place (project : Project) (location : Location) (entry : Entry) : Project :=
  ⟨project.entries.filter (fun other => other.1 ≠ location) ++ [(location, entry)]⟩

/-- Makes sure that there is a directory at a place. -/
def ensureDirectory (project : Project) (location : Location) : Project :=
  if (project.entryAt? location).isSome then project else project.place location .directory

/-- The places on the way to a place, the outermost first. -/
def ancestors (location : Location) : List Location :=
  (List.range location.length).map fun depth => location.take depth

/-- The names in a path. -/
def names (path : Path) : Location :=
  path.components.filterMap fun
    | .name text => some text
    | _ => none

/-- Puts an entry where a path leads to, with all directories on the way. -/
def insert (project : Project) (path : Path) (entry : Entry) : Project :=
  ((ancestors (names path)).foldl ensureDirectory project).place (names path) entry

/-- Takes away the entry that a path leads to, and all that is in it. -/
def erase (project : Project) (path : Path) : Project :=
  ⟨project.entries.filter fun entry => !(names path).isPrefixOf entry.1⟩

/-- Writes a text into a file of the project directory. -/
def write (project : Project) (name text : String) : Except FileFault Project :=
  match project.entryAt? [name] with
  | some .directory => .error .isDirectory
  | _ => .ok (project.place [name] (.file text.toUTF8))

end Project

end SelectorLint
