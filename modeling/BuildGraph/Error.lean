import BuildGraph.Document.Access
import BuildGraph.Document.Build
import BuildGraph.Document.Composite
import BuildGraph.Variant.Error

/-!
# Load errors

Everything that aborts a load. An error is its cause; the reason, the message and the failure below
it are functions of the error.
-/

namespace BuildGraph

/-- Why a load failed. Each reason has a stable code. -/
inductive LoadErrorReason
  /-- A file that is depended on or included cannot be read. -/
  | missingFile
  /-- A file is not YAML, or its root is not a mapping. -/
  | invalidYaml
  /-- A document holds an invalid declaration. -/
  | invalidData
  /-- A composition would change a type or override a key. -/
  | illegalComposite
  /-- No consistent choice of variants exists. -/
  | variantDisagreement
  /-- The dependencies, or the includes, go round in a circle. -/
  | circularDependency
  /-- Two elements have the same name. -/
  | conflictingName
  deriving DecidableEq, Repr

namespace LoadErrorReason

/-- All reasons. -/
def all : List LoadErrorReason :=
  [missingFile, invalidYaml, invalidData, illegalComposite, variantDisagreement, circularDependency,
    conflictingName]

/-- The stable code of a reason, which is also how it is written. -/
def code : LoadErrorReason → String
  | missingFile => "missing-file"
  | invalidYaml => "invalid-yaml"
  | invalidData => "invalid-data"
  | illegalComposite => "illegal-composite"
  | variantDisagreement => "variant-disagreement"
  | circularDependency => "circular-dependency"
  | conflictingName => "conflicting-name"

end LoadErrorReason

/-- How the targets of dependency declarations are written. -/
inductive DependencyScope
  /-- As files of the project. -/
  | file
  /-- As names of sibling embeds of a stack. -/
  | stack
  deriving DecidableEq, Repr

/-- The key that names the target of a dependency declaration. -/
def DependencyScope.targetKey : DependencyScope → String
  | .file => "filename"
  | .stack => "name"

/-- A layer that is composited onto a document. -/
inductive Layer
  | architecture (name : String)
  | fragment (file : String)
  | variant (name : String)
  deriving DecidableEq, Repr

/-- How a layer is named in messages. -/
def Layer.text : Layer → String
  | architecture name => "Arch " ++ name
  | fragment file => "Include '" ++ file ++ "'"
  | variant name => "Variant '" ++ name ++ "'"

/-- What aborts a load. -/
inductive LoadError
  /-- The target is empty or an absolute path. -/
  | invalidTarget (target : String)
  /-- The project directory is the empty path. -/
  | unresolvedProject (directory : String)
  /-- No element name can be derived from a file. -/
  | unnamedFile (file : String) (place : Option Provenance)
  /-- A file cannot be read. -/
  | missingFile (file : String) (place : Option Provenance)
  /-- A file holds no document. -/
  | invalidFile (file : String) (place : Option Provenance) (cause : ParseError)
  /-- An included file cannot be read. -/
  | missingFragment (file : String) (place : Provenance)
  /-- An included file holds no document. -/
  | invalidFragment (file : String) (place : Provenance) (cause : ParseError)
  /-- An included file is included by itself; `active` are the files being processed. -/
  | circularInclude (file : String) (active : List String) (place : Provenance)
  /-- An include declaration is neither a path nor a list of paths. -/
  | invalidInclude (found : ValueType) (place : Provenance)
  /-- A layer declared at `place` does not fit on a document. -/
  | layer (layer : Layer) (place : Provenance) (cause : CompositeError)
  /-- A member of a document could not be read. -/
  | access (cause : AccessError)
  /-- Two files have the same element name. -/
  | conflictingFile (file existing : String) (place : Option Provenance)
  /-- An element declares exactly one variant. -/
  | singleVariant (element : String) (place : Provenance)
  /-- A variant is asked for that the element does not declare. -/
  | undeclaredVariant (element variant : String) (place : Option Provenance)
  /-- A variant name has characters that are not allowed. -/
  | invalidVariantName (name : String) (place : Provenance)
  /-- A variant is declared twice. -/
  | duplicateVariant (name : String) (place : Provenance)
  /-- A dependency is neither a name nor a mapping. -/
  | invalidDependency (scope : DependencyScope) (found : ValueType) (place : Provenance)
  /-- A dependency declaration has an unknown key. -/
  | unexpectedKey (key : String) (place : Provenance)
  /-- A dependency declaration has an unknown type. -/
  | unknownDependencyType (text : String) (place : Provenance)
  /-- A dependency names its file by an absolute path. -/
  | absoluteDependency (file : String) (place : Provenance)
  /-- A dependency is declared twice in one list. -/
  | duplicateDependency (name : String) (place : Provenance)
  /-- No consistent choice of variants was found. -/
  | variantConflict (cause : VariantError)
  /-- The search for a consistent choice of variants does not end. -/
  | endlessSearch (target : String)
  /-- A stack embeds a stack. -/
  | nestedStack (embed : String) (place : Provenance)
  /-- An embed has the name of another element. -/
  | conflictingEmbed (element existing : String) (place : Provenance)
  /-- An embed declares a variant that its stack does not declare. -/
  | undeclaredEmbedVariant (embed variant stack : String) (place : Provenance)
  /-- An embed depends on something that is not in its stack. -/
  | unknownSibling (embed dependency stack : String) (place : Provenance)
  /-- An element is reached from itself along `chain`. -/
  | circularDependency (element : String) (chain : List String) (place : Option Provenance)
  /-- An element that is depended on is not known. -/
  | neverLoaded (element : String)
  /-- An error in other words. -/
  | other (reason : LoadErrorReason) (text : String)
  deriving DecidableEq, Repr

namespace LoadError

/-- The reason of an error. -/
def reason : LoadError → LoadErrorReason
  | unresolvedProject .. | missingFile .. | missingFragment .. => .missingFile
  | invalidFile .. | invalidFragment .. => .invalidYaml
  | layer .. => .illegalComposite
  | circularInclude .. | circularDependency .. => .circularDependency
  | conflictingFile .. | conflictingEmbed .. => .conflictingName
  | variantConflict (.disagreement ..) | endlessSearch .. => .variantDisagreement
  | variantConflict (.circular ..) => .circularDependency
  | other reason _ => reason
  | variantConflict (.missing ..)
  | invalidTarget .. | unnamedFile .. | invalidInclude .. | access .. | singleVariant ..
  | undeclaredVariant .. | invalidVariantName .. | duplicateVariant .. | invalidDependency ..
  | unexpectedKey .. | unknownDependencyType .. | absoluteDependency .. | duplicateDependency ..
  | nestedStack .. | undeclaredEmbedVariant .. | unknownSibling .. | neverLoaded .. => .invalidData

/-- A text in single quotes. -/
def quoted (s : String) : String := "'" ++ s ++ "'"

/-- Names with arrows between them. -/
def arrows (names : List String) : String := " -> ".intercalate names

/-- The text of a layer that does not fit on a document. -/
def layerMessage (layer : Layer) : CompositeError → String
  | e@(.typeConflict _ expected actual) =>
    layer.text ++ " specifies type '" ++ actual.name ++ "' for path '" ++ e.path ++
      "', expected '" ++ expected.name ++ "'"
  | e@(.override ..) => layer.text ++ " tries to override existing key '" ++ e.path ++ "'"

/-- The text of an error, with the place of the declaration at fault in front of it. -/
def message : LoadError → String
  | invalidTarget target =>
    "Target " ++ quoted target ++ " must be a path relative to the project directory"
  | unresolvedProject directory =>
    "Could not resolve project directory " ++ quoted directory
  | unnamedFile file place =>
    located place ("Cannot derive an element name from " ++ quoted file)
  | missingFile file place =>
    located place ("Could not find file at path " ++ quoted file)
  | invalidFile file place cause =>
    match place with
    | some place => located place ("Failed to load " ++ quoted file ++ ": " ++ cause.message)
    | none => cause.message
  | missingFragment file place =>
    located place ("Could not find include file " ++ quoted file)
  | invalidFragment file place cause =>
    located place ("Failed to load " ++ quoted file ++ ": " ++ cause.message)
  | circularInclude file active place =>
    located place ("Circular include of " ++ quoted file ++ " (" ++ arrows active ++ " -> " ++
      file ++ ")")
  | invalidInclude found place =>
    located place ("'include' must be a path or a list of paths, found a " ++ found.name)
  | .layer l place cause => located place (layerMessage l cause)
  | access cause => cause.message
  | conflictingFile file existing place =>
    located place ("Tried to load file " ++ quoted file ++ " but existing file " ++
      quoted existing ++ " has the same name")
  | singleVariant element place =>
    located place ("Element " ++ quoted element ++
      " declares a single variant, declare none or at least two")
  | undeclaredVariant element variant place =>
    located place ("Element " ++ quoted element ++ " does not declare variant " ++ quoted variant)
  | invalidVariantName name place => located place ("Invalid variant name " ++ quoted name)
  | duplicateVariant name place =>
    located place ("Variant " ++ quoted name ++ " is declared more than once")
  | invalidDependency scope found place =>
    located place ("Dependency must be a " ++ scope.targetKey ++ " or a mapping, found a " ++
      found.name)
  | unexpectedKey key place =>
    located place ("Unexpected key " ++ quoted key ++ " in dependency declaration")
  | unknownDependencyType text place => located place (DependencyType.unknownMessage text)
  | absoluteDependency file place =>
    located place ("Dependency filename " ++ quoted file ++
      " must be relative to the project directory")
  | duplicateDependency name place => located place ("Duplicate dependency on " ++ quoted name)
  | variantConflict cause => cause.message
  | endlessSearch target => "No end to the search for the variants of " ++ quoted target
  | nestedStack embed place =>
    located place ("Embedded element " ++ quoted embed ++ " is a stack, stacks cannot be nested")
  | conflictingEmbed element existing place =>
    located place ("Embedded element " ++ quoted element ++
      " conflicts with an element of the same name from " ++ quoted existing)
  | undeclaredEmbedVariant embed variant stack place =>
    located place ("Embedded element " ++ quoted embed ++ " declares variant " ++ quoted variant ++
      " which stack " ++ quoted stack ++ " does not declare")
  | unknownSibling embed dependency stack place =>
    located place ("Embedded element " ++ quoted embed ++ " depends on " ++ quoted dependency ++
      ", which is not embedded in stack " ++ quoted stack)
  | circularDependency element chain place =>
    located place ("Circular dependency detected at element " ++ quoted element ++ ": " ++
      arrows chain)
  | neverLoaded element => "Element " ++ quoted element ++ " was never loaded"
  | other _ text => text

/-- The failure that an error was raised for. -/
inductive Cause
  | unreadable
  | parse (cause : ParseError)
  | access (cause : AccessError)
  | composite (cause : CompositeError)
  | variant (cause : VariantError)

/-- The failure below an error, if there is one. -/
def cause : LoadError → Option Cause
  | unresolvedProject .. | missingFile .. | missingFragment .. => some .unreadable
  | invalidFile _ _ e | invalidFragment _ _ e => some (.parse e)
  | access e => some (.access e)
  | layer _ _ e => some (.composite e)
  | variantConflict e => some (.variant e)
  | _ => none

end LoadError

/-- A failed access aborts a load. -/
instance : MonadLift (Except AccessError) (Except LoadError) :=
  ⟨fun r => r.mapError LoadError.access⟩

end BuildGraph
