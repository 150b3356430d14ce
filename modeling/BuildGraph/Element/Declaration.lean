import BuildGraph.Element.Architecture
import BuildGraph.Element.Depends

/-!
# Element declarations

Reading an element from its document: the kind, the overlays of the architectures, the dependencies
and the variants. Each variant is a small document of its own, with overlays and dependencies.
What is left of the document is the data of the element.
-/

namespace BuildGraph

namespace Variant

/-- The key of the variants of a document. -/
def listKey : String := "variants"

/-- Fails if a variant has the name of one of those before it. -/
def checkNew (before : List Variant) (name : String) (place : Provenance) :
    Except LoadError Unit :=
  if (Named.names before).contains name then .error (.duplicateVariant name place) else .ok ()

/-- Reads a variant of the element `owner`, all of whose variants before are `before`. -/
def read (archs : Architectures) (scope : DependencyScope) (owner : String)
    (before : List Variant) (item : Node) : Except LoadError Variant := do
  let item ← item.expectType listKey .mapping
  let place := item.placeOf nameKey
  let name ← checkName (← item.getString nameKey) place
  checkNew before name place
  let (deps, data) ← Dependency.take scope owner (← archs.apply (item.erase nameKey))
  pure { name, data, deps, place }

/-- Reads the items of a variant list, after the variants `before`. -/
def readList (archs : Architectures) (scope : DependencyScope) (owner : String) :
    (items : List Node) → (before : List Variant) → Except LoadError (List Variant)
  | [], before => .ok before
  | item :: rest, before => do
    let variant ← read archs scope owner before item
    readList archs scope owner rest (before ++ [variant])

/-- Takes the variants of the element `owner` out of a document. -/
def take (archs : Architectures) (scope : DependencyScope) (owner : String) (document : Node) :
    Except LoadError (List Variant × Node) := do
  let (items, document) ← document.takeItems listKey
  pure (← readList archs scope owner items [], document)

end Variant

namespace Element

/-- The key of the kind of an element. -/
def kindKey : String := "kind"

/-- The key of the elements that a stack embeds. -/
def embedsKey : String := "embeds"

/-- Reads the element `name` from a document whose fragments are spliced in. -/
def ofDocument (archs : Architectures) (scope : DependencyScope) (name filename : String)
    (document : Node) : Except LoadError Element := do
  let kind ← document.getString kindKey
  let document ← archs.apply document
  let (baseDeps, document) ← Dependency.take scope name document
  let (variants, data) ← Variant.take archs scope name document
  pure { name, filename, kind, data, baseDeps, variants }

end Element

end BuildGraph
