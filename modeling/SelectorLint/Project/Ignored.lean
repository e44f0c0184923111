import SelectorLint.Ignore
import SelectorLint.Project.Files

/-!
# Ignored entries of a project

The ignore lists that count for an entry are those of the directories around it (`Project.isIgnored`). There are
three sorts, and the first that says something of the entry decides: lists for all tools, lists for version control,
and the list that a repository keeps to itself. The last two count only inside a repository, up to its own directory.
Of the lists of one sort, the innermost that says something decides.

Rules are matched against the text of an entry as seen from the directory of the list. That text depends on how
the path was written that the search started from, so an entry is judged together with the way to it (`Route`).
-/

namespace SelectorLint.Project

/-! ## The way to an entry -/

/-- A way to an entry: a path, the place that it leads to, and the names from there to the entry. -/
structure Route where
  root : Path
  base : Location
  inner : Location
  deriving DecidableEq, Repr

namespace Route

/-- The place of the entry. -/
def location (route : Route) : Location := route.base ++ route.inner

/-- The path of the entry. -/
def path (route : Route) : Path := route.inner.foldl Path.join route.root

/-- The text of the entry as seen from a directory around it. From the place that the path leads to, it is a
matter of texts: a dot at the start goes once from the path of the directory and twice from that of the entry.
Above that place, the text has the names that lead to the entry. -/
def seenFrom (route : Route) (directory : Location) : String :=
  if directory.length < route.base.length then "/".intercalate (route.location.drop directory.length)
  else
    let passed := { route with inner := route.inner.take (directory.length - route.base.length) }
    route.path.withoutHere.withoutHere.seenFrom passed.path.withoutHere

end Route

/-! ## The lists around an entry -/

/-- The rules in the file at a place. -/
def rulesAt (project : Project) (location : Location) : IgnoreList :=
  match project.entryAt? location with
  | some (.file content) => IgnoreList.ofBytes content
  | _ => []

/-- The directory is that of a repository. -/
def isRepository (project : Project) (directory : Location) : Bool :=
  [".git", ".jj"].any fun name => (project.entryAt? (directory ++ [name])).isSome

/-- The first line of a file, if it is text. -/
def firstLine? (content : ByteArray) : Option String := do
  let line ← (IgnoreList.lines content.toList).head?
  let text ← IgnoreList.lineText? line
  return String.ofList text

/-- The directory that a repository shares with others. A file stands for the directory then, and says where
to find the place that names the shared one. -/
def sharedDirectory? (project : Project) (link : ByteArray) : Option Path := do
  let line ← firstLine? link
  let mark := "gitdir: "
  guard (mark.toList.isPrefixOf line.toList)
  let target : Path := ⟨String.ofList (line.toList.drop mark.length)⟩
  let content ← (project.readBytes (target.join "commondir")).toOption
  let shared ← firstLine? content
  return if shared.toList.head? = some '.' then target.join shared else ⟨shared⟩

/-- The rules that a repository keeps to itself. -/
def repositoryRules (project : Project) (directory : Location) : IgnoreList :=
  match project.entryAt? (directory ++ [".git"]) with
  | some (.file link) =>
    match (project.sharedDirectory? link).map fun shared =>
        project.readBytes (shared.join "info/exclude") with
    | some (.ok content) => IgnoreList.ofBytes content
    | _ => []
  | _ => project.rulesAt (directory ++ [".git", "info", "exclude"])

/-- The lists of a directory. -/
structure DirectoryRules where
  directory : Location
  /-- The list for all tools. -/
  general : IgnoreList
  /-- The list for version control. -/
  versioned : IgnoreList
  /-- The list that a repository keeps to itself. -/
  own : IgnoreList
  isRepository : Bool
  deriving Repr

/-- The lists of a directory. -/
def directoryRules (project : Project) (directory : Location) : DirectoryRules where
  directory
  general := project.rulesAt (directory ++ [".ignore"])
  versioned := project.rulesAt (directory ++ [".gitignore"])
  own := project.repositoryRules directory
  isRepository := project.isRepository directory

/-- The directory has no lists and is not that of a repository, so that it makes no difference. -/
def DirectoryRules.isEmpty (rules : DirectoryRules) : Bool :=
  rules.general.isEmpty && rules.versioned.isEmpty && rules.own.isEmpty && !rules.isRepository

/-- The lists of all directories of a project that make a difference. -/
def allRules (project : Project) : List DirectoryRules :=
  let inner := project.entries.filter fun entry => entry.2.isDirectory
  (([] :: inner.map Prod.fst).map project.directoryRules).filter fun rules => !rules.isEmpty

/-- The members of a list up to and with the first one that has a property. -/
def upTo {Item : Type} (property : Item → Bool) : List Item → List Item
  | [] => []
  | item :: rest => if property item then [item] else item :: upTo property rest

/-- What the lists of the directories around an entry say of it, the innermost directory first. -/
def verdict? (around : List DirectoryRules) (route : Route) (isDirectory : Bool) : Option Verdict :=
  let inside :=
    if around.any DirectoryRules.isRepository then upTo DirectoryRules.isRepository around else []
  let judge (select : DirectoryRules → IgnoreList) (rules : DirectoryRules) : Option Verdict :=
    (select rules).verdict? (route.seenFrom rules.directory) isDirectory
  around.findSome? (judge DirectoryRules.general)
    <|> inside.findSome? (judge DirectoryRules.versioned)
    <|> inside.findSome? (judge DirectoryRules.own)

/-- The entry at the end of a way is ignored. The lists of all directories are given. -/
def isIgnored (project : Project) (rules : List DirectoryRules) (route : Route) : Bool :=
  let around := (ancestors route.location).reverse.filterMap fun directory =>
    rules.find? fun rules => rules.directory = directory
  match project.entryAt? route.location with
  | some entry => verdict? around route entry.isDirectory = some .ignored
  | none => false

end SelectorLint.Project
