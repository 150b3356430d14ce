import BuildGraph.Text.Quoted
import BuildGraph.Yaml.Cursor

/-!
# Plain and quoted scalars

Both may run over several lines, and both fold the gap between two words: a single line break
becomes a space, further breaks are kept, and blanks around breaks are lost.
-/

namespace BuildGraph.Yaml

/-- What lies between two words of a scalar. -/
structure Gap where
  /-- The blanks before the first line break. -/
  blanks : String := ""
  /-- The number of line breaks. -/
  breaks : Nat := 0
  /-- Whether the first line break is escaped and stands for nothing. -/
  escaped : Bool := false

namespace Gap

/-- Whether the gap reaches over the end of a line. -/
def isFolded (gap : Gap) : Bool := gap.escaped || gap.breaks > 0

/-- The text that a gap stands for. -/
def text (gap : Gap) : String :=
  if gap.escaped then String.ofList (List.replicate gap.breaks '\n')
  else match gap.breaks with
    | 0 => gap.blanks
    | 1 => " "
    | n + 1 => String.ofList (List.replicate n '\n')

/-- A gap that got longer by a line break. -/
def withBreak (gap : Gap) : Gap := { gap with blanks := "", breaks := gap.breaks + 1 }

/-- A gap that got longer by a blank. -/
def withBlank (gap : Gap) (c : Char) : Gap := { gap with blanks := gap.blanks.push c }

end Gap

namespace Plain

/-- A plain scalar of which `text` was read. -/
structure State where
  cursor : Cursor
  text : String := ""
  gap : Gap := {}

/-- The characters of a plain scalar up to the next blank, line break or indicator. -/
def word (inFlow : Bool) : List Char → List Char
  | [] => []
  | c :: rest => if isPlain inFlow c rest.head? then c :: word inFlow rest else []

/-- Reads blanks and line breaks behind a word. Tabs may not indent a line that goes on. -/
def readGap (indent : Int) : State → Option State :=
  Cursor.scan State.cursor fun s =>
    let c := s.cursor
    match c.peek with
    | some ch =>
      if isBreak ch then .again { s with cursor := c.breakLine, gap := s.gap.withBreak }
      else if !isBlank ch then .done s
      else if !c.indenting then .again { s with cursor := c.next, gap := s.gap.withBlank ch }
      else if ch == '\t' && (c.column : Int) < indent then
        match c.skipBlanks true with
        | some blanks =>
          if endsLine blanks.cursor.peek then .again { s with cursor := blanks.cursor }
          else .malformed
        | none => .malformed
      else .again { s with cursor := c.next }
    | none => .done s

/-- Reads a plain scalar whose further lines are indented by at least `indent`. -/
def read (inFlow : Bool) (indent : Int) (start : Cursor) : Option (String × Cursor) :=
  if inFlow && (start.column : Int) < indent then none
  else do
    let final ← Cursor.scan State.cursor (fun s =>
      let c := s.cursor
      if (c.indenting && c.atDocumentMarker) || c.at? '#' then .done s
      else if inFlow && c.at? '-' && c.peekSecond.any isFlow then .malformed
      else
        let run := word inFlow c.rest
        let s := if run.isEmpty then s else
          { cursor := c.skip run.length, text := s.text ++ s.gap.text ++ String.ofList run }
        match s.cursor.peek with
        | none => .done s
        | some ch =>
          if !(isBlank ch || isBreak ch) then .done s
          else match readGap indent s with
            | none => .malformed
            | some s =>
              if !inFlow && (s.cursor.column : Int) < indent then .done s else .again s)
      { cursor := start }
    if final.text.isEmpty then none else some (final.text, final.cursor)

end Plain

namespace Quoted

/-- A quoted scalar of which `text` was read. -/
structure State where
  cursor : Cursor
  text : String := ""
  gap : Gap := {}

/-- The character of a short escape. -/
def shortEscape? : Char → Option Char
  | '0' => some '\x00'
  | 'a' => some '\x07'
  | 'b' => some '\x08'
  | 't' | '\t' => some '\t'
  | 'n' => some '\n'
  | 'v' => some '\x0b'
  | 'f' => some '\x0c'
  | 'r' => some '\r'
  | 'e' => some '\x1b'
  | ' ' => some ' '
  | '"' => some '"'
  | '/' => some '/'
  | '\\' => some '\\'
  | 'N' => some '\u0085'
  | '_' => some '\u00a0'
  | 'L' => some '\u2028'
  | 'P' => some '\u2029'
  | _ => none

/-- The number of hexadecimal digits of a long escape. -/
def escapeWidth? : Char → Option Nat
  | 'x' => some 2
  | 'u' => some 4
  | 'U' => some 8
  | _ => none

/-- The character with a code point, if there is one. -/
def character? (n : Nat) : Option Char :=
  if n.isValidChar then some (Char.ofNat n) else none

/-- Reads an escape sequence, the cursor being at its backslash. -/
def readEscape (c : Cursor) : Option (Char × Cursor) := do
  let kind ← c.peekSecond
  match shortEscape? kind with
  | some ch => pure (ch, c.skip 2)
  | none =>
    let width ← escapeWidth? kind
    let digits := (c.rest.drop 2).take width
    if digits.length < width then none
    else do
      let ch ← (Text.hexNumber? digits).bind character?
      pure (ch, c.skip (2 + width))

/-- The quote of a scalar in single or in double quotes. -/
def quote (single : Bool) : Char := if single then '\'' else '"'

/-- Reads the characters up to the next blank, line break or closing quote, or over an escaped line
break. -/
def readWord (single : Bool) : State → Option State :=
  Cursor.scan State.cursor fun s =>
    let c := s.cursor
    match c.peek with
    | none => .done s
    | some ch =>
      if isBlank ch || isBreak ch then .done s
      else if single && ch == '\'' && c.peekSecond == some '\'' then
        .again { s with cursor := c.skip 2, text := s.text.push ch }
      else if ch == quote single then .done s
      else if !single && ch == '\\' then
        if c.peekSecond.any isBreak then
          .done { s with cursor := c.next.breakLine, gap := { s.gap with escaped := true } }
        else match readEscape c with
          | some (escaped, after) => .again { s with cursor := after, text := s.text.push escaped }
          | none => .malformed
      else .again { s with cursor := c.next, text := s.text.push ch }

/-- Reads blanks and line breaks behind a word. Tabs may not indent a line. -/
def readGap (indent : Int) : State → Option State :=
  Cursor.scan State.cursor fun s =>
    let c := s.cursor
    match c.peek with
    | none => .done s
    | some ch =>
      if isBreak ch then .again { s with cursor := c.breakLine, gap := s.gap.withBreak }
      else if !isBlank ch then .done s
      else if !s.gap.isFolded then .again { s with cursor := c.next, gap := s.gap.withBlank ch }
      else if ch == '\t' && (c.column : Int) < indent then .malformed
      else .again { s with cursor := c.next }

/-- Whether `next` may follow the closing quote of a scalar. -/
def mayFollow (inFlow sameLine : Bool) : Option Char → Bool
  | some ',' | some '}' | some ']' => inFlow
  | some ':' => inFlow || sameLine
  | next => endsLine next

/-- Reads a quoted scalar whose further lines are indented by at least `indent`, the cursor being at
its opening quote, and the blanks behind it. -/
def read (single inFlow : Bool) (indent : Int) (start : Cursor) : Option (String × Cursor) := do
  let final ← Cursor.scan State.cursor (fun s =>
    let c := s.cursor
    if (c.column == 0 && c.atDocumentMarker) || c.atEnd || (c.column : Int) < indent then .malformed
    else match readWord single s with
      | none => .malformed
      | some s =>
        if s.cursor.at? (quote single) then .done s
        else match readGap indent s with
          | none => .malformed
          | some s => .again { cursor := s.cursor, text := s.text ++ s.gap.text })
    { cursor := start.next }
  let blanks ← final.cursor.next.skipBlanks true
  if mayFollow inFlow (start.mark.line == blanks.cursor.mark.line) blanks.cursor.peek then
    some (final.text, blanks.cursor)
  else none

end Quoted

end BuildGraph.Yaml
