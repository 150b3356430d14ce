import BuildGraph.Element.Declaration
import BuildGraph.Graph.Cycle
import BuildGraph.Resolved.Basic

/-!
# Collecting resolved elements

Building the tree of resolved elements from a table whose variants are chosen and whose stacks are
expanded. Each element is built once and shared. An element that is reached from itself has no tree.
-/

namespace BuildGraph

namespace Settings

/-- A mapping of a document, empty without the member. -/
def mappingAt (document : Node) (key : String) : Except AccessError Node := do
  pure ((← document.getMapping? key).getD (.emptyMapping document.place))

/-- The item of a list of strings under a key. -/
def stringItem (key : String) (item : Node) : Except AccessError String := do
  let item ← item.expectType key .string
  pure (item.asString?.getD "")

/-- A list of strings of a document, empty without the member. -/
def strings (document : Node) (key : String) : Except AccessError (List String) := do
  let list ← document.getSequence? key
  ((list.map Node.items).getD []).mapM (stringItem key)

/-- Reads the settings of an element from its data, apart from the sources. -/
def read (sources : List Source) (data : Node) : Except AccessError Settings := do
  let kind ← data.getString Element.kindKey
  let config ← mappingAt data "config"
  let vars ← mappingAt data "variables"
  let env ← mappingAt data "environment"
  let uncached ← strings data "environment-nocache"
  let published ← mappingAt data "public"
  pure { kind, sources, config, vars, env, uncached, published, place := data.place }

end Settings

/-- The resolved elements built so far, by name. -/
abbrev Built := List (String × Resolved)

namespace Elements

mutual
/-- Builds the resolved element of a name, while those on `path` are being built. -/
def collect (elements : Elements) (path : List String) (name : String) (built : Built) :
    Except LoadError (Resolved × Built) :=
  match built.lookup name with
  | some r => .ok (r, built)
  | none =>
    match _found : elements.find? name with
    | none => .error (.neverLoaded name)
    | some element =>
      if path.contains name then .error (.circularDependency name (chain path name) none)
      else do
        let (sources, data) ← Source.take name element.data
        let (needs, built) ← collectAll elements (path ++ [name]) element.deps built
        let settings ← Settings.read sources data
        let build := needs.filter fun need => need.1.isBuild
        let runtime := needs.filter fun need => need.1.isRuntime
        let r := Resolved.mk element.name element.variant settings (build.map Prod.snd)
          (runtime.map Prod.snd)
        pure (r, built ++ [(name, r)])
termination_by elements.effort path 0
decreasing_by
  have new : name ∉ path := by simp_all
  exact effort_append_lt _found new 0

/-- Builds the resolved elements that the dependencies name. -/
def collectAll (elements : Elements) (path : List String) (deps : List Dependency) (built : Built) :
    Except LoadError (List (Dependency × Resolved) × Built) :=
  match deps with
  | [] => .ok ([], built)
  | dep :: rest => do
    let (r, built) ← collect elements path dep.name built
    let (needs, built) ← collectAll elements path rest built
    pure ((dep, r) :: needs, built)
termination_by elements.effort path (deps.length + 1)
decreasing_by
  · exact effort_lt (Nat.succ_pos _)
  · exact effort_lt (Nat.lt_succ_self _)
end

end Elements

end BuildGraph
