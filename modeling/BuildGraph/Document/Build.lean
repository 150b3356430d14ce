import BuildGraph.Document.Node
import BuildGraph.Yaml.Event

/-!
# Documents from events

Builds the tree of a document from its events. Scalars are typed by their style and text. A mapping
is keyed by the text of its keys, whatever their style; a repeated key keeps its first position and
takes its last value. An alias stands for the node that its anchor was last completed with. The first
defect in the order of the events is what the document fails with.
-/

namespace BuildGraph

/-- Why a document could not be read. -/
inductive ParseError
  /-- The text of a file is not YAML. -/
  | malformed (file : String)
  /-- A collection or an alias stands where a key is expected. -/
  | nonScalarKey (place : Provenance)
  /-- An alias stands for an anchor that no completed node has. -/
  | unknownAnchor (place : Provenance)
  /-- The end of a sequence closes no sequence. -/
  | unbalancedSequence (place : Provenance)
  /-- The end of a mapping closes no mapping. -/
  | unbalancedMapping (place : Provenance)
  /-- The root of the document at `place` is not a mapping. -/
  | notMapping (found : ValueType) (place : Provenance)
  deriving DecidableEq, Repr

namespace ParseError

/-- Where the defect of a well-formed text is, and what it is. -/
def defect? : ParseError → Option (Provenance × String)
  | malformed _ => none
  | nonScalarKey p => some (p, "Only scalar mapping keys are supported")
  | unknownAnchor p => some (p, "Alias refers to an unknown anchor")
  | unbalancedSequence p => some (p, "Unbalanced sequence end")
  | unbalancedMapping p => some (p, "Unbalanced mapping end")
  | notMapping found p =>
    some (p, "Loading YAML file did not specify a dictionary, found a " ++ found.name)

/-- The text of a parse error. What exactly is wrong with malformed YAML is not told. -/
def message (e : ParseError) : String :=
  match e.defect? with
  | some (p, text) => p.text ++ ": " ++ text
  | none => "<malformed yaml>"

end ParseError

namespace Scalar

/-- The spellings of null. -/
def nullWords : List String := ["~", "null", "Null", "NULL", ""]

/-- The spellings of true. -/
def trueWords : List String :=
  ["true", "True", "TRUE", "yes", "Yes", "YES", "on", "On", "ON"]

/-- The spellings of false. -/
def falseWords : List String :=
  ["false", "False", "FALSE", "no", "No", "NO", "off", "Off", "OFF"]

/-- The value of a scalar. Only plain scalars are anything but strings, and an integer is one only if
it is written in canonical form, so that `007` stays the string it was written as. -/
def ofText (style : Yaml.Style) (text : String) : Scalar :=
  if style != .plain then .string text
  else if nullWords.contains text then .null
  else if trueWords.contains text then .bool true
  else if falseWords.contains text then .bool false
  else match Text.readInt? text with
    | some i => .int i
    | none => .string text

end Scalar

/-- A collection of which a part is built. -/
inductive OpenCollection
  | sequence (start : Provenance) (anchor : Option Nat) (items : List Node)
  | mapping (start : Provenance) (anchor : Option Nat) (members : List (String × Node))
    (pendingKey : Option String)

/-- A document of which a part is built. -/
structure Builder where
  /-- The file that places of nodes name. -/
  file : String
  /-- The open collections, the innermost first. -/
  stack : List OpenCollection := []
  /-- The completed nodes that have an anchor, the last one first. -/
  anchors : List (Nat × Node) := []
  /-- The root, once it is completed. -/
  root : Option Node := none

namespace Builder

/-- The place of an event. -/
def locate (b : Builder) (mark : Yaml.Mark) : Provenance :=
  ⟨b.file, mark.line, mark.column⟩

/-- Whether the next node is a key. -/
def awaitsKey (b : Builder) : Bool :=
  match b.stack with
  | .mapping _ _ _ none :: _ => true
  | _ => false

/-- Remembers a completed node under its anchor. -/
def remember (b : Builder) (anchor : Option Nat) (node : Node) : Builder :=
  match anchor with
  | some number => { b with anchors := (number, node) :: b.anchors }
  | none => b

/-- Puts a completed node where it belongs: into the innermost open collection, or at the root. -/
def place (b : Builder) (node : Node) : Except ParseError Builder :=
  match b.stack with
  | [] => .ok { b with root := some node }
  | .sequence start anchor items :: stack =>
    .ok { b with stack := .sequence start anchor (items ++ [node]) :: stack }
  | .mapping start anchor members (some key) :: stack =>
    .ok { b with stack := .mapping start anchor (Keyed.insert key node members) none :: stack }
  | .mapping _ _ _ none :: _ => .error (.nonScalarKey node.place)

/-- Remembers a completed node and puts it where it belongs. -/
def complete (b : Builder) (anchor : Option Nat) (node : Node) : Except ParseError Builder :=
  (b.remember anchor node).place node

/-- Takes a key. A block mapping is marked at the colon of its first key, so a mapping starts at its
first key if that precedes its mark. -/
def takeKey (b : Builder) (text : String) (here : Provenance) : Builder :=
  match b.stack with
  | .mapping start anchor members none :: stack =>
    let start := if members.isEmpty && here.precedes start then here else start
    { b with stack := .mapping start anchor members (some text) :: stack }
  | _ => b

/-- Builds on with one event. -/
def step (b : Builder) (e : Yaml.MarkedEvent) : Except ParseError Builder :=
  let here := b.locate e.mark
  match e.event with
  | .scalar text style anchor =>
    if b.awaitsKey then .ok (b.takeKey text here)
    else b.complete anchor (.scalar (.ofText style text) here)
  | .alias anchor =>
    if b.awaitsKey then .error (.nonScalarKey here)
    else match b.anchors.lookup anchor with
      | some node => b.place node
      | none => .error (.unknownAnchor here)
  | .sequenceStart anchor =>
    if b.awaitsKey then .error (.nonScalarKey here)
    else .ok { b with stack := .sequence here anchor [] :: b.stack }
  | .sequenceEnd =>
    match b.stack with
    | .sequence start anchor items :: stack =>
      { b with stack }.complete anchor (.sequence items start)
    | _ => .error (.unbalancedSequence here)
  | .mappingStart anchor =>
    if b.awaitsKey then .error (.nonScalarKey here)
    else .ok { b with stack := .mapping here anchor [] none :: b.stack }
  | .mappingEnd =>
    match b.stack with
    | .mapping start anchor members _ :: stack =>
      { b with stack }.complete anchor (.mapping members start)
    | _ => .error (.unbalancedMapping here)

end Builder

namespace Node

/-- The tree of a document, from its events. Without any it is an empty mapping. -/
def ofEvents (file : String) (events : List Yaml.MarkedEvent) : Except ParseError Node := do
  let final ← events.foldlM Builder.step { file }
  pure (final.root.getD (.emptyMapping (.fileStart file)))

end Node

end BuildGraph
