import BuildGraph.Document.Node
import BuildGraph.Text.Blank

/-!
# Typed access

Reading members of a mapping as values of an expected type. There are exactly two conversions: an
integer may be read as a string, and strings lose the blanks around them. A null member counts as
absent, and nothing is ever turned into a mapping or a sequence.
-/

namespace BuildGraph

/-- Why a member could not be read. -/
inductive AccessError
  /-- A required key is absent from the mapping declared at `place`. -/
  | missing (key : String) (place : Provenance)
  /-- The value of a key, declared at `place`, has the wrong type. -/
  | wrongType (key : String) (expected actual : ValueType) (place : Provenance)
  deriving DecidableEq, Repr

namespace AccessError

/-- The place an access error is reported against. -/
def place : AccessError → Provenance
  | missing _ p | wrongType _ _ _ p => p

/-- The text of an access error. -/
def message : AccessError → String
  | missing key p => p.text ++ ": Dictionary did not contain expected key '" ++ key ++ "'"
  | wrongType key expected actual p =>
    p.text ++ ": Value of '" ++ key ++ "' is not of the expected type '" ++ expected.name ++
      "', found '" ++ actual.name ++ "'"

end AccessError

namespace ValueType

/-- Whether a value of type `actual` may be read where `expected` is asked for. -/
def accepts (expected actual : ValueType) : Bool :=
  expected == actual || (expected == string && actual == integer)

end ValueType

namespace Scalar

/-- A scalar read as a string: strings without the blanks around them, integers in decimal. -/
def asString? : Scalar → Option String
  | string s => some (Text.trim s)
  | int i => some (toString i)
  | _ => none

end Scalar

namespace Node

/-- A node read as a string, if it holds a string or an integer. -/
def asString? : Node → Option String
  | scalar s _ => s.asString?
  | _ => none

/-- The content of a node that was accepted as `expected`: read as a string where a string is
expected, and unchanged otherwise. -/
def readAs (expected : ValueType) (node : Node) : Content :=
  match expected, node.asString? with
  | .string, some s => .scalar (.string s)
  | _, _ => node.content

/-- The node itself if its type is accepted; `key` names it in the error. -/
def expectType (node : Node) (key : String) (expected : ValueType) : Except AccessError Node :=
  if expected.accepts node.valueType then .ok node
  else .error (.wrongType key expected node.valueType node.place)

/-- The member under a key if its type is accepted. A null counts as absent, unless null is what is
expected. -/
def lookup (node : Node) (key : String) (expected : ValueType) :
    Except AccessError (Option Node) :=
  match node.get? key with
  | none => .ok none
  | some member =>
    if member.isNull && expected != .null then .ok none
    else (member.expectType key expected).map some

/-- A required result of an access to `key`. -/
def required {α : Type} (node : Node) (key : String) : Option α → Except AccessError α
  | some a => .ok a
  | none => .error (.missing key node.place)

/-- The content of a member of the expected type, or the default if it is absent. -/
def getContent (node : Node) (key : String) (expected : ValueType) (fallback : Option Content) :
    Except AccessError Content := do
  match ← node.lookup key expected with
  | some member => pure (member.readAs expected)
  | none => node.required key fallback

/-- An optional string member. -/
def getString? (node : Node) (key : String) : Except AccessError (Option String) := do
  pure ((← node.lookup key .string).bind asString?)

/-- A required string member. -/
def getString (node : Node) (key : String) : Except AccessError String := do
  node.required key (← node.getString? key)

/-- A string member, or the default if it is absent. -/
def getStringD (node : Node) (key fallback : String) : Except AccessError String := do
  pure ((← node.getString? key).getD fallback)

/-- An optional boolean member. -/
def getBool? (node : Node) (key : String) : Except AccessError (Option Bool) := do
  match ← node.lookup key .boolean with
  | some (.scalar (.bool b) _) => pure (some b)
  | _ => pure none

/-- An optional mapping member. -/
def getMapping? (node : Node) (key : String) : Except AccessError (Option Node) :=
  node.lookup key .mapping

/-- A required mapping member. -/
def getMapping (node : Node) (key : String) : Except AccessError Node := do
  node.required key (← node.getMapping? key)

/-- An optional sequence member. -/
def getSequence? (node : Node) (key : String) : Except AccessError (Option Node) :=
  node.lookup key .sequence

end Node

end BuildGraph
