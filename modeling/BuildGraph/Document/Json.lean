import BuildGraph.Document.Node

/-!
# Documents as JSON text

The compact JSON text of the plain value of a node: no spaces, members in their order, places
forgotten.
-/

namespace BuildGraph

namespace Scalar

/-- The JSON text of a scalar. -/
def json : Scalar → List Char
  | null => "null".toList
  | bool true => "true".toList
  | bool false => "false".toList
  | int i => (toString i).toList
  | string s => Text.quote s

end Scalar

/-- The texts of the parts of a collection with commas between them. -/
def commaSeparated (parts : List (List Char)) : List Char :=
  [','].intercalate parts

namespace Node

mutual
/-- The JSON text of a node. -/
def jsonChars : Node → List Char
  | scalar s _ => s.json
  | sequence items _ => '[' :: (commaSeparated (itemTexts items) ++ [']'])
  | mapping members _ => '{' :: (commaSeparated (memberTexts members) ++ ['}'])

/-- The JSON texts of the items of a sequence. -/
def itemTexts : List Node → List (List Char)
  | [] => []
  | item :: rest => item.jsonChars :: itemTexts rest

/-- The JSON texts of the members of a mapping, each with its key. -/
def memberTexts : List (String × Node) → List (List Char)
  | [] => []
  | (key, value) :: rest => (Text.quote key ++ ':' :: value.jsonChars) :: memberTexts rest
end

/-- The compact JSON text of the plain value of a node. -/
def json (node : Node) : String :=
  String.ofList node.jsonChars

end Node

end BuildGraph
