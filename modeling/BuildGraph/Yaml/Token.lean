import BuildGraph.Yaml.Cursor

/-!
# Tokens of YAML

The words that the grammar of YAML is stated with. Besides the indicators of the text itself there
are tokens for what indentation says: where a block collection starts and where it ends.
-/

namespace BuildGraph.Yaml

/-- How a scalar is written. -/
inductive Style
  | plain
  | singleQuoted
  | doubleQuoted
  | literal
  | folded
  deriving DecidableEq, Repr, Inhabited

/-- What a token says. -/
inductive TokenKind
  | versionDirective
  /-- Declares a tag handle. Unknown directives count as one with the empty handle. -/
  | tagDirective (handle : String)
  | documentStart
  | documentEnd
  | streamEnd
  | blockSequenceStart
  | blockMappingStart
  | blockEnd
  | flowSequenceStart
  | flowSequenceEnd
  | flowMappingStart
  | flowMappingEnd
  | blockEntry
  | flowEntry
  | key
  | value
  | alias (name : String)
  | anchor (name : String)
  | tag (handle : String)
  | scalar (text : String) (style : Style)
  /-- Stands for the rest of a text from where it stops making sense; the grammar has no use for
  it. -/
  | malformed
  deriving DecidableEq, Repr, Inhabited

/-- A token and its place. -/
structure Token where
  kind : TokenKind
  mark : Mark
  deriving DecidableEq, Repr, Inhabited

end BuildGraph.Yaml
