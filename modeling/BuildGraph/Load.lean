import BuildGraph.Graph.Order
import BuildGraph.Project.Discovery
import BuildGraph.Resolved.Collect
import BuildGraph.Stack
import BuildGraph.Variant.Request

/-!
# Loading

A load starts from the file of a target and ends with its resolved element. It discovers the elements
of all files that are depended on, checks what variants are asked for, chooses variants, expands
stacks, refuses cycles, and puts dependencies in order.
-/

namespace BuildGraph

/-- What to load. -/
structure Options where
  /-- The file of the element to load. -/
  target : String
  /-- The variant asked for. -/
  variant : Option String := none
  /-- The architecture of the machine that builds. -/
  hostArch : Option String := none
  /-- The architecture that is built for, if it is not that of the host. -/
  targetArch : Option String := none
  /-- The project directory, from the root of the workspace. -/
  directory : String := "."
  deriving DecidableEq, Repr

namespace Options

/-- The architecture that is built for. -/
def effectiveTargetArch (options : Options) : Option String :=
  options.targetArch.or options.hostArch

/-- The architectures that overlays are chosen by. -/
def archs (options : Options) : Architectures :=
  ⟨options.hostArch, options.effectiveTargetArch⟩

end Options

namespace Project

/-- Resolves the element of a target among the elements that were discovered from its file. -/
def resolve (archs : Architectures) (elements : Elements) (target : String)
    (variant : Option String) : Except LoadError Resolved := do
  elements.checkRequests target variant
  let elements ← elements.chooseVariants target variant
  let elements ← elements.expandStacks archs target
  elements.checkCircular [target]
  let elements := elements.sortDependencies (elements.reachable target)
  let (resolved, _) ← elements.collect [] target []
  pure resolved

/-- Loads the element of a target's file. -/
def load (project : Project) (target : String) (variant : Option String) : Loading Resolved :=
  let found := Discovery.fromTarget project target
  ⟨found.ticks, do
    let elements ← found.result
    let name ← Element.nameOfFile (Path.normalize target) none
    resolve project.archs elements name variant⟩

end Project

/-- Loads what the options ask for from a workspace. -/
def load (workspace : Workspace) (options : Options) : Loading Resolved :=
  if options.target = "" || Path.isAbsolute options.target then
    ⟨[], .error (.invalidTarget options.target)⟩
  else if options.directory = "" then ⟨[], .error (.unresolvedProject options.directory)⟩
  else
    Project.load ⟨workspace.filesFrom options.directory, options.archs⟩ options.target
      options.variant

end BuildGraph
