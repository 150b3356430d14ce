/-!
# Character classes of YAML

The classes of characters that the lexical rules of YAML are stated with. The end of the text counts
as a character `none` that follows the last one.
-/

namespace BuildGraph.Yaml

/-- A line break character. -/
def isBreak (c : Char) : Bool :=
  c == '\n' || c == '\r'

/-- A space or a tab. -/
def isBlank (c : Char) : Bool :=
  c == ' ' || c == '\t'

/-- A line break or the end of the text. -/
def endsLine : Option Char → Bool
  | some c => isBreak c
  | none => true

/-- A blank, a line break or the end of the text. -/
def endsWord : Option Char → Bool
  | some c => isBlank c || isBreak c
  | none => true

/-- An indicator with a meaning of its own inside flow collections. -/
def isFlow (c : Char) : Bool :=
  c == ',' || c == '[' || c == ']' || c == '{' || c == '}'

/-- A letter, digit, hyphen or underscore of ASCII. -/
def isName (c : Char) : Bool :=
  c.isAlphanum || c == '_' || c == '-'

/-- A character that may stand in a URI, the escape sign included. -/
def isUri (c : Char) : Bool :=
  isName c || "#;/?:@&=+$,.!~*'()[]%".toList.contains c

/-- A character that may stand in the last part of a tag. -/
def isTag (c : Char) : Bool :=
  isUri c && !isFlow c && c != '!'

/-- A character that may stand in the name of an anchor. -/
def isAnchor (c : Char) : Bool :=
  !isBreak c && !isBlank c && !isFlow c && c != '\uFEFF'

/-- Whether a plain scalar goes on over the character `c` with `next` behind it. -/
def isPlain (inFlow : Bool) (c : Char) (next : Option Char) : Bool :=
  if c == ':' then !(endsWord next || (inFlow && next.any isFlow))
  else !(isBlank c || isBreak c || (inFlow && isFlow c))

end BuildGraph.Yaml
