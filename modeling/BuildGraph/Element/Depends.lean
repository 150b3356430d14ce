import BuildGraph.Error
import BuildGraph.Project.Path

/-!
# Dependency declarations

A document lists its dependencies under `depends`. An item is the target alone or a mapping with the
target, a variant and a type. In the file of an element the targets are files of the project; in an
embed of a stack they are names of its siblings. No list names one target twice.
-/

namespace BuildGraph

/-- The place of the member under a key, or of the node itself without such a member. -/
def Node.placeOf (node : Node) (key : String) : Provenance :=
  ((node.get? key).map Node.place).getD node.place

/-- The name of the element that a file declares: the last component of the path, without its
extension. -/
def Element.nameOfFile (file : String) (place : Option Provenance) : Except LoadError String :=
  match Path.stem? file with
  | some name => .ok name
  | none => .error (.unnamedFile file place)

namespace Variant

/-- Variant names are made of ASCII letters, digits, `-` and `_`. -/
def isName (name : String) : Bool :=
  name != "" && name.toList.all fun c => c.isAlphanum || c == '-' || c == '_'

/-- The key under which a variant is named. -/
def nameKey : String := "variant"

/-- A name that may be the name of a variant. -/
def checkName (name : String) (place : Provenance) : Except LoadError String :=
  if isName name then .ok name else .error (.invalidVariantName name place)

end Variant

namespace Dependency

/-- The key of the dependencies of a document. -/
def listKey : String := "depends"

/-- The key of the type of a dependency. -/
def typeKey : String := "type"

/-- What a declaration asks for, before its target is looked at. -/
structure Request where
  target : String
  variant : Option String := none
  type : Option DependencyType := none

namespace Request

/-- The variant that a declaration asks for. -/
def readVariant (item : Node) : Except LoadError (Option String) := do
  match ← item.getString? Variant.nameKey with
  | some name => some <$> Variant.checkName name (item.placeOf Variant.nameKey)
  | none => pure none

/-- The type that a declaration gives. -/
def readType (item : Node) : Except LoadError (Option DependencyType) := do
  match ← item.getString? typeKey with
  | some text =>
    match DependencyType.ofName? text with
    | some type => pure (some type)
    | none => .error (.unknownDependencyType text (item.placeOf typeKey))
  | none => pure none

/-- Whether a declaration in the scope may have the key. -/
def isKey (scope : DependencyScope) (key : String) : Bool :=
  key == scope.targetKey || key == Variant.nameKey || key == typeKey

/-- Reads one declaration. -/
def read (scope : DependencyScope) (item : Node) : Except LoadError Request :=
  match item.asString? with
  | some target => .ok ⟨target, none, none⟩
  | none =>
    if item.isMapping then
      match item.members.find? fun member => !isKey scope member.1 with
      | some (key, value) => .error (.unexpectedKey key value.place)
      | none => do
        let target ← item.getString scope.targetKey
        let variant ← readVariant item
        let type ← readType item
        pure ⟨target, variant, type⟩
    else .error (.invalidDependency scope item.valueType item.place)

end Request

/-- The name and the file of the element that a target stands for. -/
def resolveTarget (scope : DependencyScope) (target : String) (place : Provenance) :
    Except LoadError (String × Option String) :=
  match scope with
  | .file =>
    if Path.isAbsolute target then .error (.absoluteDependency target place)
    else do
      let file := Path.normalize target
      pure (← Element.nameOfFile file (some place), some file)
  | .stack => .ok (target, none)

/-- Reads one item of a dependency list of the element `owner`. -/
def read (scope : DependencyScope) (owner : String) (item : Node) : Except LoadError Dependency := do
  let request ← Request.read scope item
  let (name, filename) ← resolveTarget scope request.target item.place
  pure
    { owner, name, filename
      variant := request.variant
      type := request.type
      place := item.place }

/-- Whether two dependencies are on the same target. Different files of one element name are not: that
is a conflict of names. -/
def sameTarget (scope : DependencyScope) (a b : Dependency) : Bool :=
  match scope with
  | .file => a.filename == b.filename
  | .stack => a.name == b.name

/-- Fails if a dependency is on the target of one of those before it. -/
def checkNew (scope : DependencyScope) (before : List Dependency) (dep : Dependency) :
    Except LoadError Unit :=
  if before.any (sameTarget scope dep) then .error (.duplicateDependency dep.name dep.place)
  else .ok ()

/-- Reads the items of a dependency list, after the dependencies `before`. -/
def readList (scope : DependencyScope) (owner : String) :
    (items : List Node) → (before : List Dependency) → Except LoadError (List Dependency)
  | [], before => .ok before
  | item :: rest, before => do
    let dep ← read scope owner item
    checkNew scope before dep
    readList scope owner rest (before ++ [dep])

end Dependency

/-- Takes the items of the list under a key out of a mapping. -/
def Node.takeItems (node : Node) (key : String) : Except AccessError (List Node × Node) := do
  let list ← node.getSequence? key
  pure ((list.map Node.items).getD [], node.erase key)

/-- Takes the dependencies of the element `owner` out of a document. -/
def Dependency.take (scope : DependencyScope) (owner : String) (document : Node) :
    Except LoadError (List Dependency × Node) := do
  let (items, document) ← document.takeItems listKey
  pure (← readList scope owner items [], document)

end BuildGraph
