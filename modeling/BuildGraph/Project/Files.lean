import BuildGraph.Project.Path

/-!
# The files of a project

`Files` is what a load reads: the texts of all readable files, by normalized paths relative to the
project directory. A `Workspace` is the tree of directories that a project directory lies in. The
same file may be reached by several normalized paths, as `a` and `../sub/a` from the directory `sub`;
`Workspace.filesFrom?` lists it under each of them.
-/

namespace BuildGraph

/-- The texts of the readable files, by normalized path. -/
abbrev Files := List (String × String)

/-- A place in a workspace: some levels above its root, and from there down by names. The names of
the directories above the root are not known, so the root is never reached from above. -/
structure Place where
  up : Nat
  down : List String
  deriving DecidableEq, Repr

namespace Place

/-- The root of a workspace. -/
def root : Place := ⟨0, []⟩

/-- The directory that holds a place. -/
def parent (p : Place) : Place :=
  if p.down.isEmpty then ⟨p.up + 1, []⟩ else ⟨p.up, p.down.dropLast⟩

/-- Follows one component of a path. -/
def follow (p : Place) (component : String) : Place :=
  if component = Path.parent then p.parent else ⟨p.up, p.down ++ [component]⟩

/-- The places that a path leads through from the root, the last one being where it leads. -/
def trail (path : String) : List Place :=
  ((Path.components path).foldl (fun (places, here) c =>
    (places ++ [here.follow c], here.follow c)) ([], root)).1

/-- The `levels`-th directory above a place. -/
def ancestor (p : Place) : Nat → Place
  | 0 => p
  | levels + 1 => (p.ancestor levels).parent

/-- The normalized paths that lead from a directory to a place. -/
def pathsTo (base target : Place) : List String :=
  (List.range (base.down.length + (target.up - base.up) + 1)).filterMap fun levels =>
    let top := base.ancestor levels
    if top.up = target.up && top.down.isPrefixOf target.down then
      some (Path.join (List.replicate levels Path.parent ++ target.down.drop top.down.length))
    else none

end Place

/-- A tree of directories and files. -/
structure Workspace where
  /-- The files, without a text where they cannot be read as one. -/
  files : List (Place × Option String) := []
  /-- The directories below the root and beside the directories above it. -/
  directories : List Place := []

namespace Workspace

/-- Whether a place is a directory. Everything above the root is. -/
def isDirectory (w : Workspace) (p : Place) : Bool :=
  p.down.isEmpty || w.directories.contains p

/-- Takes a file away. -/
def delete (w : Workspace) (path : String) : Workspace :=
  match (Place.trail path).getLast? with
  | some place => { w with files := w.files.filter fun f => f.1 ≠ place }
  | none => w

/-- Adds a directory and those that lead to it. -/
def addDirectory (w : Workspace) (path : String) : Workspace :=
  { w with directories := w.directories ++ Place.trail path }

/-- Writes a file, and adds the directories that lead to it. -/
def write (w : Workspace) (path : String) (text : Option String) : Workspace :=
  match (Place.trail path).getLast? with
  | some place =>
    { files := (place, text) :: (w.delete path).files
      directories := w.directories ++ (Place.trail path).dropLast }
  | none => w

/-- The directory that a path leads to, if every step of it leads through directories. -/
def directory? (w : Workspace) (path : String) : Option Place :=
  if Path.isAbsolute path then none
  else
    let trail := Place.trail path
    if trail.all w.isDirectory then some (trail.getLast?.getD Place.root) else none

/-- The files as seen from a directory. Without the directory nothing can be read. -/
def filesFrom (w : Workspace) (path : String) : Files :=
  match w.directory? path with
  | none => []
  | some base => w.files.flatMap fun (place, text) =>
      match text with
      | some text => (base.pathsTo place).map fun name => (name, text)
      | none => []

end Workspace

end BuildGraph
