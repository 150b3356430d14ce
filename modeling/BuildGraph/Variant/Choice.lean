import BuildGraph.Layer
import BuildGraph.Variant.Search

/-!
# Chosen variants

Committing a configuration to its element: the data of the variant is composited onto the document of the
element, and the dependencies in effect become its resolved dependencies.
-/

namespace BuildGraph

namespace Element

/-- The document of an element in a variant. -/
def dataIn (e : Element) (variant : Option String) : Except LoadError Node :=
  match variant.bind e.variant? with
  | some v => (Layer.variant v.name).onto v.place v.data e.data
  | none => .ok e.data

end Element

/-- Commits the variant and the dependencies of a configuration to its element. -/
def Configuration.commitTo (c : Configuration) (e : Element) : Except LoadError Element := do
  pure { e with data := ← e.dataIn c.variant, variant := c.variant, deps := c.deps }

/-- Commits a variant to an element, with the dependencies in effect in it. -/
def Element.choose (e : Element) (variant : Option String) : Except LoadError Element :=
  (Configuration.of none e variant).commitTo e

namespace Elements

/-- Commits the configurations one after the other. -/
def commit (elements : Elements) : (configurations : List Configuration) →
    Except LoadError Elements
  | [] => .ok elements
  | c :: rest =>
    match elements.find? c.element with
    | some element => do commit (elements.put (← c.commitTo element)) rest
    | none => commit elements rest

/-- Finds a variant for every element that is reached from the target and commits it. -/
def chooseVariants (elements : Elements) (target : String) (variant : Option String) :
    Except LoadError Elements := do
  elements.commit (← elements.resolve target variant).toList

end Elements

end BuildGraph
