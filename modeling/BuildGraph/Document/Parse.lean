import BuildGraph.Document.Build
import BuildGraph.Yaml.Event.Grammar

/-!
# Reading documents

The document in a text, and the document in the text of a file, whose root has to be a mapping.
-/

namespace BuildGraph.Node

/-- The name under which a text without a file stands in places. -/
def anonymous : String := "<string>"

/-- The first document of a text. Text that is not YAML comes before any other defect. -/
def parse (text file : String) : Except ParseError Node :=
  match Yaml.Event.ofText? text with
  | some events => ofEvents file events
  | none => .error (.malformed file)

/-- A root that must be a mapping. A null root counts as an empty one. -/
def expectDocument : Node → Except ParseError Node
  | .mapping members p => .ok (.mapping members p)
  | .scalar .null p => .ok (.emptyMapping p)
  | node => .error (.notMapping node.valueType node.place)

/-- The first document of a text whose root must be a mapping. -/
def parseDocument (text file : String) : Except ParseError Node := do
  expectDocument (← parse text file)

end BuildGraph.Node
