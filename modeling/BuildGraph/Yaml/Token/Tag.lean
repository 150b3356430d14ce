import BuildGraph.Text.Quoted
import BuildGraph.Yaml.Token

/-!
# Tags, anchors and directives

The words of YAML with a syntax of their own besides scalars. Tags and directives say nothing about
a document, but they must be well formed, and the handle of a tag must have been declared.
-/

namespace BuildGraph.Yaml

namespace Anchor

/-- Reads the name of an anchor or alias behind its indicator. -/
def read (c : Cursor) : Option (String × Cursor) :=
  let (name, after) := c.next.span isAnchor
  if name.isEmpty then none else some (String.ofList name, after)

end Anchor

namespace Tag

/-- The byte of an escape sequence in front of a text. -/
def escapedByte? : List Char → Option Nat
  | '%' :: a :: b :: _ => Text.hexNumber? [a, b]
  | _ => none

/-- The number of escape sequences of the character that begins at the cursor, if they are well
formed. Only characters of one or two bytes can be: the value of longer ones, their bytes side by
side, is beyond the last code point. -/
def escapeWidth? (c : Cursor) : Option Nat := do
  let lead ← escapedByte? c.rest
  if lead < 0x80 then pure 1
  else if 0xC0 ≤ lead && lead < 0xE0 then
    let trail ← escapedByte? (c.rest.drop 3)
    if 0x80 ≤ trail && trail < 0xC0 && (lead * 256 + trail).isValidChar then pure 2 else none
  else none

/-- Reads characters of a URI, escape sequences included. -/
def skipUri (p : Char → Bool) : Cursor → Option Cursor :=
  Cursor.scan id fun c =>
    match c.peek with
    | some '%' =>
      if !p '%' then .done c
      else match escapeWidth? c with
        | some n => .again (c.skip (3 * n))
        | none => .malformed
    | some ch => if p ch then .again c.next else .done c
    | none => .done c

/-- Reads a tag handle: an exclamation mark, a name and, where there is one, a second exclamation
mark. -/
def readHandle (c : Cursor) : Option (String × Cursor) :=
  if !c.at? '!' then none
  else
    let (name, after) := c.next.span isName
    let head := "!" ++ String.ofList name
    if after.at? '!' then some (head ++ "!", after.next) else some (head, after)

/-- Whether a handle is closed by a second exclamation mark. -/
def isClosed (handle : String) : Bool :=
  handle.length ≥ 2 && handle.toList.getLast? == some '!'

/-- Reads a tag and gives its handle. A tag in angle brackets and the tag `!` have none. -/
def read (inFlow : Bool) (c : Cursor) : Option (String × Cursor) := do
  let (handle, after) ←
    if c.peekSecond == some '<' then do
      let after ← skipUri isUri (c.skip 2)
      if after.at? '>' then some ("", after.next) else none
    else do
      let (head, afterHead) ← readHandle c
      let after ← skipUri isTag afterHead
      let hasSuffix := after.offset > afterHead.offset
      if isClosed head then (if hasSuffix then some (head, after) else none)
      else some (if hasSuffix || head.length > 1 then "!" else "", after)
  if endsWord after.peek || (inFlow && after.peek.any isFlow) then some (handle, after) else none

end Tag

namespace Directive

/-- Reads a number of at most nine digits. -/
def skipNumber (c : Cursor) : Option Cursor :=
  let (digits, after) := c.span Char.isDigit
  if digits.isEmpty || digits.length > 9 then none else some after

/-- Reads the parameter of a version directive. -/
def readVersion (c : Cursor) : Option (TokenKind × Cursor) := do
  let after ← skipNumber (c.span isBlank).2
  if !after.at? '.' then none
  else do
    let after ← skipNumber after.next
    pure (.versionDirective, after)

/-- Reads the parameters of a tag directive: a handle and the beginning of a URI. -/
def readTagDeclaration (c : Cursor) : Option (TokenKind × Cursor) := do
  let (handle, after) ← Tag.readHandle (c.span isBlank).2
  if handle != "!" && !Tag.isClosed handle then none
  else do
    let start := (after.span isBlank).2
    let after ←
      if start.at? '!' then Tag.skipUri isUri start.next
      else if start.peek.any isTag then Tag.skipUri isUri start
      else none
    if endsWord after.peek then some (.tagDirective handle, after) else none

/-- Reads a directive and the end of its line. A directive of an unknown name counts as the
declaration of an empty handle. -/
def read (c : Cursor) : Option (TokenKind × Cursor) := do
  let (name, after) := c.next.span isName
  if name.isEmpty || !endsWord after.peek then none
  else do
    let (kind, after) ←
      if name = "YAML".toList then readVersion after
      else if name = "TAG".toList then readTagDeclaration after
      else some (.tagDirective "", after.skipLine)
    let blanks ← after.skipBlanks true
    if endsLine blanks.cursor.peek then some (kind, blanks.cursor.breakLine) else none

end Directive

end BuildGraph.Yaml
