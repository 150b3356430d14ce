import BuildGraph.Element.Depends

/-!
# Sources

The sources of an element, declared under `sources` in its document. A source has a kind and may have
a directory it is staged into; everything else it declares is left for its kind to read.
-/

namespace BuildGraph

/-- One source of an element. -/
structure Source where
  /-- The name of the element and the index, with `-` between them. -/
  name : String
  /-- The name of the element. -/
  element : String
  /-- The position among the sources of the element. -/
  index : Nat
  kind : String
  /-- The directory that the source is staged into. -/
  directory : Option String
  /-- What the source declares besides its kind and directory. -/
  config : Node
  /-- Where the source is declared. -/
  place : Provenance

namespace Source

/-- The key of the sources of a document. -/
def listKey : String := "sources"

/-- The key of the kind of a source. -/
def kindKey : String := "kind"

/-- The key of the directory of a source. -/
def directoryKey : String := "directory"

/-- Reads one source of an element. -/
def read (element : String) (index : Nat) (item : Node) : Except LoadError Source := do
  let item ← item.expectType listKey .mapping
  let kind ← item.getString kindKey
  let directory ← item.getString? directoryKey
  pure
    { name := element ++ "-" ++ toString index
      element, index, kind, directory
      config := (item.erase kindKey).erase directoryKey
      place := item.place }

/-- Reads the sources of an element, the first of them at `index`. -/
def readList (element : String) :
    (items : List Node) → (index : Nat) → Except LoadError (List Source)
  | [], _ => .ok []
  | item :: rest, index => do
    let source ← read element index item
    pure (source :: (← readList element rest (index + 1)))

/-- Takes the sources of an element out of its document. -/
def take (element : String) (document : Node) : Except LoadError (List Source × Node) := do
  let (items, document) ← document.takeItems listKey
  pure (← readList element items 0, document)

end Source

end BuildGraph
