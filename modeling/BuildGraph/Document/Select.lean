import BuildGraph.Document.Node

/-!
# Selecting inside a document

A path leads from the root of a document down to one of its nodes, through the keys of mappings and
the indexes of sequences.
-/

namespace BuildGraph

/-- One step down a document. -/
inductive Step
  | member (key : String)
  | item (index : Nat)
  deriving DecidableEq, Repr

namespace Node

/-- The node one step below. -/
def child? (node : Node) : Step → Option Node
  | .member key => node.get? key
  | .item index => node.items[index]?

/-- Puts a node in the place of the one that is one step below. -/
def setChild (node : Node) (step : Step) (child : Node) : Node :=
  match node, step with
  | .mapping members p, .member key => .mapping (Keyed.insert key child members) p
  | .sequence items p, .item index => .sequence (items.set index child) p
  | _, _ => node

/-- The node that a path leads to. -/
def select? (node : Node) : List Step → Option Node
  | [] => some node
  | step :: path => (node.child? step).bind (select? · path)

/-- Puts a node in the place of the one that a path leads to. A path that leads nowhere changes
nothing. -/
def replace (node : Node) (path : List Step) (new : Node) : Node :=
  match path with
  | [] => new
  | step :: path =>
    match node.child? step with
    | some child => node.setChild step (child.replace path new)
    | none => node

end Node

end BuildGraph
