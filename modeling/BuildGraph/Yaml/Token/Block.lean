import BuildGraph.Yaml.Cursor

/-!
# Block scalars

Literal and folded scalars. The content is indented by a common column, given by the header or found
on the first line. The header also says what becomes of the line breaks at the end: one is kept by
default, `-` strips and `+` keeps all.
-/

namespace BuildGraph.Yaml.Block

/-- What becomes of the line breaks at the end of a block scalar. -/
inductive Chomping
  | strip
  | clip
  | keep
  deriving DecidableEq, Repr

/-- What the header of a block scalar says, and where it ends. -/
structure Header where
  chomping : Chomping
  /-- Indentation relative to the parent; zero where the first line decides. -/
  increment : Nat
  cursor : Cursor

/-- The chomping indicator at the cursor. -/
def chomping? (c : Cursor) : Option Chomping :=
  match c.peek with
  | some '+' => some .keep
  | some '-' => some .strip
  | _ => none

/-- The indentation indicator at the cursor, none if there is no digit. A zero is malformed. -/
def increment? (c : Cursor) : Option (Option Nat) :=
  match c.peek with
  | some ch =>
    if !ch.isDigit then some none
    else if ch == '0' then none
    else some (some (ch.toNat - '0'.toNat))
  | none => some none

/-- Reads the header of a block scalar behind its indicator: chomping and indentation in either
order. -/
def readHeader (c : Cursor) : Option Header := do
  match chomping? c with
  | some chomping =>
    match ← increment? c.next with
    | some n => pure ⟨chomping, n, c.skip 2⟩
    | none => pure ⟨chomping, 0, c.next⟩
  | none =>
    match ← increment? c with
    | some n =>
      match chomping? c.next with
      | some chomping => pure ⟨chomping, n, c.skip 2⟩
      | none => pure ⟨.clip, n, c.next⟩
    | none => pure ⟨.clip, 0, c⟩

/-- Line breaks that were read, and where they ended. -/
structure Breaks where
  cursor : Cursor
  count : Nat := 0
  /-- The largest column that was reached. -/
  width : Nat := 0

/-- Skips empty lines and then indentation of up to `limit` columns, or of any width without a
limit. -/
def skipIndentation (limit : Option Nat) (start : Cursor) : Option Breaks :=
  Cursor.scan Breaks.cursor (fun b =>
    let run := (b.cursor.rest.takeWhile (· == ' ')).length
    let c := b.cursor.skip (match limit with
      | some n => min run (n - b.cursor.column)
      | none => run)
    let width := max b.width c.column
    if c.peek.any isBreak then .again ⟨c.breakLine, b.count + 1, width⟩
    else .done ⟨c, b.count, width⟩)
    { cursor := start }

/-- `n` line breaks. -/
def lines (n : Nat) : String := String.ofList (List.replicate n '\n')

/-- The content of a block scalar of which `text` was read. -/
structure State where
  cursor : Cursor
  text : String := ""
  /-- Whether a line break was read behind the last line. -/
  lineEnded : Bool := false
  /-- The number of empty lines behind the last line. -/
  emptyLines : Nat := 0
  /-- Whether the last line begins with a blank. -/
  afterBlank : Bool := false

/-- The text between the last line and a line that begins with a blank or not. Folding joins two
lines with a space, or with as many breaks as there are empty lines between them. -/
def separator (literal : Bool) (s : State) (atBlank : Bool) : String :=
  if !literal && s.lineEnded && !s.afterBlank && !atBlank then
    if s.emptyLines = 0 then " " else lines s.emptyLines
  else lines ((if s.lineEnded then 1 else 0) + s.emptyLines)

/-- Reads the lines of a block scalar at the column `column`. -/
def readLines (literal : Bool) (column : Nat) (start : State) : Option State :=
  Cursor.scan State.cursor (fun s =>
    let c := s.cursor
    if c.column ≠ column || c.atEnd || (column = 0 && c.atMarker '.') then .done s
    else
      let atBlank := c.peek.any isBlank
      let (line, after) := c.span fun ch => !isBreak ch
      let text := s.text ++ separator literal s atBlank ++ String.ofList line
      if after.atEnd then .done ⟨after, text, false, 0, atBlank⟩
      else match skipIndentation (some column) after.breakLine with
        | none => .malformed
        | some breaks => .again ⟨breaks.cursor, text, true, breaks.count, atBlank⟩)
    start

/-- A block scalar: where its content starts, its text and where it ends. -/
structure Scalar where
  mark : Mark
  text : String
  cursor : Cursor

/-- The text of a block scalar whose last line was read. -/
def chomp (chomping : Chomping) (column : Nat) (s : State) : String :=
  match chomping with
  | .strip => s.text
  | .clip | .keep =>
    let text := if s.lineEnded then s.text.push '\n' else s.text
    let text := if s.cursor.atEnd && s.cursor.column ≥ max column 1 then text.push '\n' else text
    if chomping = .keep then text ++ lines s.emptyLines else text

/-- The text of a block scalar that ends with the text before any content. What stands behind the
line of the header are `emptyLines` empty lines. -/
def emptyText (chomping : Chomping) (onHeaderLine : Bool) (emptyLines : Nat) : String :=
  if chomping = .strip || onHeaderLine then ""
  else if chomping = .keep then lines (max emptyLines 1)
  else lines 1

/-- The column of the content: given by the header, or the largest indentation up to the first line
with content, but more than the indentation `indent` of the parent. -/
def contentColumn (indent : Int) (increment : Nat) (width : Nat) : Nat :=
  if increment > 0 then (if indent ≥ 0 then (indent + increment).toNat else increment)
  else
    let column := max width (indent + 1).toNat
    if indent > 0 then max column 1 else column

/-- Reads a block scalar inside a block of indentation `indent`, the cursor being at its
indicator. -/
def read (literal : Bool) (indent : Int) (start : Cursor) : Option Scalar := do
  let header ← readHeader start.next
  let blanks ← header.cursor.skipBlanks true
  let c := blanks.cursor
  if !endsLine c.peek then none
  else
    let c := c.breakLine
    if c.at? '\t' then none
    else
      let limit := if header.increment > 0 then
          some (contentColumn indent header.increment 0)
        else none
      let breaks ← skipIndentation limit c
      let column := contentColumn indent header.increment breaks.width
      let c := breaks.cursor
      if c.atEnd then
        let onHeaderLine := c.mark.line == start.mark.line
        some ⟨start.mark, emptyText header.chomping onHeaderLine breaks.count, c⟩
      else if c.column < column && (c.column : Int) > indent then none
      else
        let s ← readLines literal column { cursor := c, emptyLines := breaks.count }
        some ⟨c.mark, chomp header.chomping column s, s.cursor⟩

end BuildGraph.Yaml.Block
