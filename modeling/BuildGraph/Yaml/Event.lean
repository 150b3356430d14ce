import BuildGraph.Yaml.Token

/-!
# Events of YAML

A document written down as a sequence of events: scalars, aliases, and the starts and ends of
collections, each with its place. Anchors are numbers, a new one for each time that a name is set;
the end of a collection closes the one that was opened last.
-/

namespace BuildGraph.Yaml

/-- What happens at a place of a document. -/
inductive Event
  | scalar (text : String) (style : Style) (anchor : Option Nat)
  | alias (anchor : Nat)
  | sequenceStart (anchor : Option Nat)
  | sequenceEnd
  | mappingStart (anchor : Option Nat)
  | mappingEnd
  deriving DecidableEq, Repr, Inhabited

/-- An event and its place. -/
structure MarkedEvent where
  event : Event
  mark : Mark
  deriving DecidableEq, Repr, Inhabited

end BuildGraph.Yaml
