/-!
# Project-relative paths

Files of a project are known by paths relative to its directory, and a path is put into a normal form
by its text alone: empty and `.` components are dropped, and `..` takes the component before it away.
The name of an element is what is left of the last component without its extension.
-/

namespace BuildGraph.Path

/-- The component that an absolute path begins with. -/
def root : String := "/"

/-- The component that leads to the parent directory. -/
def parent : String := ".."

/-- Whether a path begins at the root of the file system. -/
def isAbsolute (path : String) : Bool := path.toList.head? == some '/'

/-- The components of a path, without the empty ones and `.`. -/
def components (path : String) : List String :=
  let names := ((path.toList.splitOn '/').map String.ofList).filter fun c => c != "" && c != "."
  if isAbsolute path then root :: names else names

/-- Follows one component from the directory reached by the components in `trail`, the last one
first. Above the start, `..` is kept. -/
def follow (trail : List String) (component : String) : List String :=
  match trail with
  | last :: before => if component = parent && last != parent then before else component :: trail
  | [] => [component]

/-- The components of the normal form of a path. -/
def normalParts (path : String) : List String :=
  ((components path).foldl follow []).reverse

/-- The path with the given components. -/
def join (parts : List String) : String := "/".intercalate parts

/-- The normal form of a path. -/
def normalize (path : String) : String := join (normalParts path)

/-- The name of a file without its extension. A dot in front begins no extension. -/
def withoutExtension (name : String) : String :=
  match name.toList.reverse.dropWhile (· != '.') with
  | _ :: c :: rest => String.ofList (c :: rest).reverse
  | _ => name

/-- The last component of a path without its extension, if it is the name of a file. -/
def stem? (path : String) : Option String :=
  match (components path).getLast? with
  | some name => if name = parent || name = root then none else some (withoutExtension name)
  | none => none

end BuildGraph.Path
