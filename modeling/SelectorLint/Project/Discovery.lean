import SelectorLint.Project.Ignored

/-!
# Finding stylesheets

All entries under a path are found that are not ignored and not in an ignored directory (`Project.found`). A filter
of globs then tells the stylesheets that are meant from the other entries (`Filter.classify`), which are skipped for
a reason. `Project.stylesheets` does both.
-/

namespace SelectorLint

/-- A stylesheet of a project. -/
structure StyleFile where
  path : Path
  dialect : Stylesheet.Dialect
  deriving DecidableEq, Repr

/-- The stylesheet that a path leads to, by its extension. -/
def StyleFile.ofPath? (path : Path) : Option StyleFile :=
  path.dialect?.map fun dialect => ⟨path, dialect⟩

/-- Why stylesheets cannot be found. -/
inductive DiscoveryProblem where
  | invalidGlob (glob : String) (fault : Glob.Fault)
  | invalidSet (fault : Glob.SetFault)
  | unreachable (root : Path) (fault : FileFault)
  deriving DecidableEq, Repr

/-- The wording of a problem. -/
def DiscoveryProblem.message : DiscoveryProblem → String
  | invalidGlob glob fault => "Invalid glob pattern '" ++ glob ++ "': " ++ Glob.describe glob fault
  | invalidSet fault => "Invalid glob pattern '<globset>': " ++ fault.message
  | unreachable root fault =>
    "Walk error: " ++ root.text ++ ": IO error for operation on " ++ root.text ++ ": " ++ fault.message

/-! ## Filters -/

/-- Why an entry is not checked. -/
inductive SkipReason where
  | notFile
  | excluded
  | notStylesheet
  deriving DecidableEq, Repr

/-- The wording of a reason. -/
def SkipReason.label : SkipReason → String
  | notFile => "not a file"
  | excluded => "excluded by pattern"
  | notStylesheet => "not a stylesheet"

/-- The globs that say which files are checked. -/
structure Filter where
  /-- The globs of which a path has to match one, unless there are none. -/
  included : List Glob
  /-- The globs of which a path must not match any. -/
  excluded : List Glob
  deriving Repr, Inhabited

namespace Filter

/-- The globs of files that are never checked. -/
def alwaysExcluded : List String := ["**/.git/**", "**/node_modules/**"]

/-- Reads the globs of a set. -/
def readGlobs (globs : List String) : Except DiscoveryProblem (List Glob) := do
  let globs ← globs.mapM fun glob => (Glob.parse glob).mapError (.invalidGlob glob)
  match Glob.setFault? globs with
  | some fault => .error (.invalidSet fault)
  | none => .ok globs

/-- The filter with the given globs. -/
def ofGlobs (included excluded : List String) : Except DiscoveryProblem Filter := do
  let included ← readGlobs included
  let excluded ← readGlobs (excluded ++ alwaysExcluded)
  return ⟨included, excluded⟩

/-- The filter lets a path through. -/
def accepts (filter : Filter) (path : Path) : Bool :=
  (filter.included.isEmpty || filter.included.any fun glob => glob.isMatch path.text)
    && !filter.excluded.any fun glob => glob.isMatch path.text

/-- The stylesheet that an entry is, or the reason why it is not checked. -/
def classify (filter : Filter) (path : Path) (isFile : Bool) : Except SkipReason StyleFile :=
  if !isFile then .error .notFile
  else if !filter.accepts path then .error .excluded
  else
    match StyleFile.ofPath? path with
    | some file => .ok file
    | none => .error .notStylesheet

end Filter

/-! ## Entries under a path -/

/-- An entry that was found under a path. -/
structure Found where
  path : Path
  isFile : Bool
  deriving DecidableEq, Repr

namespace Project

/-- The places of the entries under a place, from there. -/
def innerLocations (project : Project) (base : Location) : List Location :=
  project.entries.filterMap fun entry =>
    if base.isPrefixOf entry.1 && base.length < entry.1.length then some (entry.1.drop base.length)
    else none

/-- The ways from a path to the entries under it that are neither ignored nor in an ignored directory. -/
def visibleRoutes (project : Project) (root : Path) (base : Location) : List Route :=
  let routes := (project.innerLocations base).map fun inner => ⟨root, base, inner⟩
  let ignored := routes.filter (project.isIgnored project.allRules)
  routes.filter fun route => !ignored.any fun other => other.inner.isPrefixOf route.inner

/-- All entries under a path that are not ignored, in the order of their paths. What the path itself leads to
is one of them. A hyphen stands for the standard input, which is no file. -/
def found (project : Project) (root : Path) : Except DiscoveryProblem (List Found) :=
  if root.same ⟨"-"⟩ then .ok [⟨⟨"<stdin>"⟩, false⟩]
  else match project.locate root with
  | .error fault => .error (.unreachable root fault)
  | .ok base =>
    let entries := (⟨root, base, []⟩ :: project.visibleRoutes root base).map fun route =>
      ⟨route.path, !(project.entryAt? route.location).any Entry.isDirectory⟩
    .ok (entries.mergeSort fun first second => first.path.text ≤ second.path.text)

/-- All entries under a path, each with what a filter says of it. -/
def classified (project : Project) (filter : Filter) (root : Path) :
    Except DiscoveryProblem (List (Path × Except SkipReason StyleFile)) :=
  (project.found root).map fun entries =>
    entries.map fun entry => (entry.path, filter.classify entry.path entry.isFile)

/-- The stylesheets under a path that a filter lets through. -/
def stylesheets (project : Project) (filter : Filter) (root : Path) :
    Except DiscoveryProblem (List StyleFile) :=
  (project.classified filter root).map fun entries =>
    entries.filterMap fun entry => entry.2.toOption

end Project

end SelectorLint
