import BuildGraph.Resolved.Source

/-!
# Resolved elements

What a load gives: the element of the target with everything it needs, as a tree. An element that is
needed in several places stands in each of them, and it is the same element everywhere.
-/

namespace BuildGraph

/-- A resolved element without what it depends on. -/
structure Settings where
  kind : String
  sources : List Source
  config : Node
  vars : Node
  env : Node
  /-- The environment variables that do not tell builds apart. -/
  uncached : List String
  /-- What other elements may read. -/
  published : Node
  /-- Where the element is declared. -/
  place : Provenance

/-- A resolved element with everything it depends on. -/
inductive Resolved
  | mk (name : String) (variant : Option String) (settings : Settings)
    (build runtime : List Resolved)

namespace Resolved

/-- The name of the element. -/
def name : Resolved → String
  | mk name .. => name

/-- The variant that was chosen for the element. -/
def variant : Resolved → Option String
  | mk _ variant .. => variant

/-- What the document of the element says. -/
def settings : Resolved → Settings
  | mk _ _ settings .. => settings

/-- The elements needed to build the element. -/
def build : Resolved → List Resolved
  | mk _ _ _ build _ => build

/-- The elements needed to run the element. -/
def runtime : Resolved → List Resolved
  | mk _ _ _ _ runtime => runtime

mutual
/-- Finds an element by name: the element itself, or one that it needs to be built, or to run. -/
def find? (target : String) : Resolved → Option Resolved
  | mk name variant settings build runtime =>
    if name = target then some (mk name variant settings build runtime)
    else (findIn? target build).or (findIn? target runtime)

/-- Finds an element by name in the first of the elements that has it. -/
def findIn? (target : String) : List Resolved → Option Resolved
  | [] => none
  | r :: rest => (find? target r).or (findIn? target rest)
end

mutual
/-- Lists an element and everything it needs after the elements `listed`, each name once: an element
before what it needs to be built, and that before what it needs to run. -/
def listAfter : (listed : List Resolved) → Resolved → List Resolved
  | listed, mk name variant settings build runtime =>
    if (listed.map Resolved.name).contains name then listed
    else listAllAfter (listAllAfter (listed ++ [mk name variant settings build runtime]) build) runtime

/-- Lists elements one after the other. -/
def listAllAfter : (listed : List Resolved) → List Resolved → List Resolved
  | listed, [] => listed
  | listed, r :: rest => listAllAfter (listAfter listed r) rest
end

/-- An element and everything it needs, each once. -/
def list (r : Resolved) : List Resolved :=
  listAfter [] r

end Resolved

end BuildGraph
