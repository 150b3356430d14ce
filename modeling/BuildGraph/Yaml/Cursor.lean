import BuildGraph.Yaml.Character

/-!
# Positions in a text

A cursor is the part of a text that is still to be read together with the place where it starts.
`Cursor.scan` is the loop that every reader below runs in: it ends because each round has to leave
less text than it found.
-/

namespace BuildGraph.Yaml

/-- A place in a text: the line counted from 1, the column from 0. -/
structure Mark where
  line : Nat
  column : Nat
  deriving DecidableEq, Repr, Inhabited

/-- The text that is still to be read and where it starts. -/
structure Cursor where
  /-- The text still to be read. -/
  rest : List Char
  /-- The number of characters read so far. -/
  offset : Nat := 0
  /-- The place of the next character. -/
  mark : Mark := ⟨1, 0⟩
  /-- Whether nothing but blanks was read since the last line break. -/
  indenting : Bool := true

namespace Cursor

/-- The column of the next character. -/
def column (c : Cursor) : Nat := c.mark.column

/-- The next character. -/
def peek (c : Cursor) : Option Char := c.rest.head?

/-- The character behind the next one. -/
def peekSecond (c : Cursor) : Option Char := c.rest.tail.head?

/-- Whether the next character is `ch`. -/
def at? (c : Cursor) (ch : Char) : Bool := c.peek == some ch

/-- Whether the text is read. -/
def atEnd (c : Cursor) : Bool := c.rest.isEmpty

/-- Reads the longest run of characters with a property, none of which may be a line break. -/
def span (p : Char → Bool) (c : Cursor) : List Char × Cursor :=
  let run := c.rest.takeWhile p
  (run, {
    rest := c.rest.drop run.length
    offset := c.offset + run.length
    mark := { c.mark with column := c.mark.column + run.length }
    indenting := c.indenting && run.all isBlank })

/-- Reads up to `n` characters, none of which may be a line break. -/
def skip (n : Nat) (c : Cursor) : Cursor :=
  let run := c.rest.take n
  { rest := c.rest.drop n
    offset := c.offset + run.length
    mark := { c.mark with column := c.mark.column + run.length }
    indenting := c.indenting && run.all isBlank }

/-- Reads the next character, which may not be a line break. -/
def next (c : Cursor) : Cursor := c.skip 1

/-- Reads a line break, if there is one: a line feed, a carriage return or both in one. -/
def breakLine (c : Cursor) : Cursor :=
  let onNextLine (rest : List Char) (n : Nat) : Cursor :=
    { rest, offset := c.offset + n, mark := ⟨c.mark.line + 1, 0⟩, indenting := true }
  match c.rest with
  | '\r' :: '\n' :: rest => onNextLine rest 2
  | '\r' :: rest | '\n' :: rest => onNextLine rest 1
  | _ => c

/-- Reads up to the end of the line. -/
def skipLine (c : Cursor) : Cursor :=
  (c.span fun ch => !isBreak ch).2

/-- Whether the text goes on with three times the character `ch` as a word of its own. -/
def atMarker (ch : Char) (c : Cursor) : Bool :=
  c.rest.take 3 == [ch, ch, ch] && endsWord (c.rest.drop 3).head?

/-- Whether the text goes on with a marker of the start or the end of a document. -/
def atDocumentMarker (c : Cursor) : Bool :=
  c.atMarker '-' || c.atMarker '.'

/-- Blanks that were read, and where they ended. -/
structure Blanks where
  cursor : Cursor
  sawSpace : Bool
  sawTab : Bool

/-- Reads blanks and a comment behind them. Without a blank in front, a comment is malformed. -/
def skipBlanks (tabs : Bool) (c : Cursor) : Option Blanks :=
  let (run, after) := c.span fun ch => ch == ' ' || (tabs && ch == '\t')
  if after.at? '#' then
    if run.isEmpty then none else some ⟨after.skipLine, run.contains ' ', run.contains '\t'⟩
  else some ⟨after, run.contains ' ', run.contains '\t'⟩

/-- The outcome of one round of a reader. -/
inductive Round (σ α : Type)
  /-- The text is malformed. -/
  | malformed
  /-- The reader is done. -/
  | done (result : α)
  /-- There is more to read. -/
  | again (state : σ)

/-- Runs a reader round by round. A round that reads nothing and is not done ends the run as
malformed. -/
def scan {σ α : Type} (cursor : σ → Cursor) (round : σ → Round σ α) (state : σ) : Option α :=
  match round state with
  | .malformed => none
  | .done result => some result
  | .again state' =>
    if (cursor state').rest.length < (cursor state).rest.length then scan cursor round state'
    else none
termination_by (cursor state).rest.length

end Cursor

end BuildGraph.Yaml
