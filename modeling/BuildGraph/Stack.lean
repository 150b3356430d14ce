import BuildGraph.Element.Declaration
import BuildGraph.Graph.Cycle
import BuildGraph.Variant.Choice

/-!
# Stacks

A stack declares elements of its own under `embeds`. Each embed becomes the element
`<stack>-<embed>`. It names its siblings by their embed names, it is in the variant of the stack if it
declares that one, and it depends on everything that the stack depends on. The stack in turn depends
on all of its embeds.
-/

namespace BuildGraph

/-- An element that a stack declares. -/
structure Embed where
  /-- Its name among the embeds of the stack. -/
  name : String
  /-- Its document, without the name. -/
  data : Node
  /-- Where it is declared. -/
  place : Provenance

namespace Embed

/-- The key under which an embed is named. -/
def nameKey : String := "name"

/-- Stacks are not nested. -/
def checkKind (name kind : String) (place : Provenance) : Except LoadError Unit :=
  if kind == Element.stackKind then .error (.nestedStack name place) else .ok ()

/-- Reads one embed. -/
def read (item : Node) : Except LoadError Embed := do
  let item ← item.expectType Element.embedsKey .mapping
  let name ← item.getString nameKey
  let kind ← item.getString Element.kindKey
  checkKind name kind item.place
  pure ⟨name, item.erase nameKey, item.place⟩

/-- Reads the embeds of a stack from its data. -/
def readAll (data : Node) : Except LoadError (List Embed) := do
  let list ← data.getSequence? Element.embedsKey
  ((list.map Node.items).getD []).mapM read

/-- The name of the element that an embed becomes. -/
def fullName (stack : Element) (name : String) : String :=
  stack.name ++ "-" ++ name

/-- The dependency of a stack on an embed. -/
def dependency (stack : Element) (embed : Embed) : Dependency :=
  { owner := stack.name
    name := fullName stack embed.name
    variant := stack.variant
    filename := none
    type := none
    place := embed.place }

end Embed

namespace Stack

/-- Fails if an element already has the name of the one that an embed becomes; `made` are the elements
of the embeds before it. -/
def checkName (elements : Elements) (stack : Element) (made : List Element) (embed : Embed) :
    Except LoadError Unit :=
  let name := Embed.fullName stack embed.name
  match elements.find? name with
  | some existing => .error (.conflictingEmbed name existing.filename embed.place)
  | none =>
    if (Named.names made).contains name then
      .error (.conflictingEmbed name stack.filename embed.place)
    else .ok ()

/-- Fails if an element of an embed declares a variant that its stack does not declare. -/
def checkVariants (stack : Element) (embed : Embed) (element : Element) : Except LoadError Unit :=
  match element.variants.find? fun v => (stack.variant? v.name).isNone with
  | some v => .error (.undeclaredEmbedVariant embed.name v.name stack.name v.place)
  | none => .ok ()

/-- Fails if an element of an embed depends on something else than its siblings. -/
def checkSiblings (stack : Element) (siblings : List String) (embed : Embed) (element : Element) :
    Except LoadError Unit :=
  match element.declaredDeps.find? fun dep => !siblings.contains dep.name with
  | some dep => .error (.unknownSibling embed.name dep.name stack.name dep.place)
  | none => .ok ()

/-- A dependency on a sibling, as a dependency on the element that the sibling becomes. -/
def qualify (stack : Element) (dep : Dependency) : Dependency :=
  { dep with name := Embed.fullName stack dep.name }

/-- An element whose dependencies on siblings name the elements that these become. -/
def qualifyAll (stack : Element) (element : Element) : Element :=
  { element with
    baseDeps := element.baseDeps.map (qualify stack)
    variants := element.variants.map fun v => { v with deps := v.deps.map (qualify stack) } }

/-- The variant of the stack, if the element of an embed declares it. -/
def variantFor (stack element : Element) : Option String :=
  stack.variant.filter fun v => (element.variant? v).isSome

/-- Adds the dependencies of the stack that an element does not have yet. -/
def inherit (stack element : Element) : Element :=
  { element with
    deps := stack.deps.foldl
      (fun deps dep =>
        if (Named.names deps).contains dep.name then deps
        else deps ++ [{ dep with owner := element.name }])
      element.deps }

/-- The element that an embed becomes, after the elements `made` of the embeds before it. -/
def elementOf (archs : Architectures) (elements : Elements) (stack : Element)
    (siblings : List String) (made : List Element) (embed : Embed) : Except LoadError Element := do
  checkName elements stack made embed
  let element ← Element.ofDocument archs .stack (Embed.fullName stack embed.name) stack.filename
    embed.data
  checkVariants stack embed element
  checkSiblings stack siblings embed element
  let element := qualifyAll stack element
  inherit stack <$> element.choose (variantFor stack element)

/-- The elements that the embeds of a stack become, after the elements `made` of those before. -/
def elementsOf (archs : Architectures) (elements : Elements) (stack : Element)
    (siblings : List String) :
    (embeds : List Embed) → (made : List Element) → Except LoadError (List Element)
  | [], made => .ok made
  | embed :: rest, made => do
    let element ← elementOf archs elements stack siblings made embed
    elementsOf archs elements stack siblings rest (made ++ [element])

/-- A stack whose embeds have become elements. -/
def withEmbeds (stack : Element) (embeds : List Embed) : Element :=
  { stack with
    data := stack.data.erase Element.embedsKey
    deps := stack.deps ++ embeds.map (Embed.dependency stack) }

end Stack

namespace Elements

/-- Adds the elements of the embeds of a stack; answers their names as well. -/
def expandStack (archs : Architectures) (elements : Elements) (name : String) :
    Except LoadError (Elements × List String) :=
  match elements.find? name with
  | none => .ok (elements, [])
  | some stack => do
    let embeds ← Embed.readAll stack.data
    let made ← Stack.elementsOf archs elements stack (embeds.map Embed.name) embeds []
    pure ((made.foldl Roster.put elements).put (Stack.withEmbeds stack embeds), Named.names made)

/-- Expands the named stacks one after the other, none of which may bring in a cycle. -/
def expandAll (archs : Architectures) (elements : Elements) :
    (names : List String) → Except LoadError Elements
  | [] => .ok elements
  | name :: rest => do
    let (elements, made) ← elements.expandStack archs name
    elements.checkCircular made
    expandAll archs elements rest

/-- Whether a name is the name of a stack. -/
def isStack (elements : Elements) (name : String) : Bool :=
  (elements.find? name).any Element.isStack

/-- Expands every stack that is reached from the target. -/
def expandStacks (archs : Architectures) (elements : Elements) (target : String) :
    Except LoadError Elements :=
  elements.expandAll archs ((elements.reachable target).filter elements.isStack)

end Elements

end BuildGraph
