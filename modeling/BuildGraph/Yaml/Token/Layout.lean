import BuildGraph.Yaml.Token

/-!
# Layout

What a reader of tokens has to remember besides the text: the tokens that are held back, the columns
of the open blocks, the open flow collections, and the places where a key may have begun.

A key is known only by the colon behind it. So the token that may begin a key is a *candidate*: it
is held back, with all tokens behind it, until the colon comes or can no longer come.
-/

namespace BuildGraph.Yaml

/-- A place where a key may have begun. -/
structure Candidate where
  /-- The number of the token that may begin a key. -/
  number : Nat
  /-- The number of characters in front of it. -/
  offset : Nat
  mark : Mark
  /-- Whether nothing but a key can stand here. -/
  required : Bool

/-- An indentation that was left for a deeper one. -/
structure Level where
  /-- The indentation to go back to. -/
  column : Int
  /-- Whether the deeper one belongs to a block collection, whose end is a token. -/
  isBlock : Bool

/-- The state of the reader of tokens. -/
structure Lexer where
  cursor : Cursor
  /-- The tokens held back, the oldest first. -/
  queue : List Token := []
  /-- The number of tokens handed out. -/
  released : Nat := 0
  /-- The candidate of the innermost flow collection, or of the block outside of all. -/
  candidate : Option Candidate := none
  /-- The candidates around it, one for each open flow collection, the innermost first. -/
  enclosing : List (Option Candidate) := []
  /-- Whether a key without an indicator may begin here. -/
  keyAllowed : Bool := true
  /-- The column of the innermost open block, `-1` outside of all. -/
  indent : Int := -1
  /-- The indentations around it, the innermost first. -/
  levels : List Level := []
  /-- The offset behind the last quoted scalar or flow collection, where a colon needs no blank. -/
  adjacent : Nat := 0
  /-- Whether a pair without braces is open in a flow sequence. -/
  pairOpen : Bool := false
  /-- Whether a flow mapping with an indicator of its own was met since the last pair ended. -/
  explicitMapping : Bool := false
  /-- Whether the end of the text was read. -/
  ended : Bool := false

namespace Lexer

/-- Whether a flow collection is open. -/
def inFlow (lexer : Lexer) : Bool := !lexer.enclosing.isEmpty

/-- Whether an indented block is open. -/
def inBlock (lexer : Lexer) : Bool := !lexer.levels.isEmpty

/-- The place of the next character. -/
def mark (lexer : Lexer) : Mark := lexer.cursor.mark

/-- Adds a token behind those that are held back. -/
def emit (lexer : Lexer) (kind : TokenKind) (mark : Mark) : Lexer :=
  { lexer with queue := lexer.queue ++ [⟨kind, mark⟩] }

/-- Puts a token in front of the one with the number `number`. -/
def emitBefore (lexer : Lexer) (number : Nat) (kind : TokenKind) (mark : Mark) : Lexer :=
  { lexer with queue := lexer.queue.insertIdx (number - lexer.released) ⟨kind, mark⟩ }

/-- Makes the next token a candidate, where keys are allowed. -/
def propose (lexer : Lexer) : Lexer :=
  if !lexer.keyAllowed then lexer
  else { lexer with candidate := some {
    number := lexer.released + lexer.queue.length
    offset := lexer.cursor.offset
    mark := lexer.mark
    required := !lexer.inFlow && lexer.indent == lexer.mark.column &&
      (lexer.levels.head?.any Level.isBlock) } }

/-- Gives the candidate of the innermost collection up. -/
def dismiss (lexer : Lexer) : Option Lexer :=
  if lexer.candidate.any Candidate.required then none else some { lexer with candidate := none }

/-- Gives a candidate up that the colon can no longer reach: outside of flow collections a key ends
on its line and within 1024 characters. -/
def dismissStale (lexer : Lexer) : Option Lexer :=
  match lexer.candidate with
  | some candidate =>
    if !lexer.inFlow && (candidate.mark.line < lexer.mark.line ||
        candidate.offset + 1024 < lexer.cursor.offset) then lexer.dismiss
    else some lexer
  | none => some lexer

/-- Whether the oldest token may still turn out to begin a key. -/
def holdsBack (lexer : Lexer) : Bool :=
  (lexer.candidate :: lexer.enclosing).any (·.any fun c => c.number == lexer.released)

/-- Opens a block collection at a column deeper than the current one, its token standing in front of
the one with the number `number`, or behind all. -/
def openBlock (lexer : Lexer) (column : Int) (number : Option Nat) (kind : TokenKind)
    (mark : Mark) : Lexer :=
  if lexer.inFlow then lexer
  else
    let lexer := match lexer.levels with
      | level :: levels =>
        if lexer.indent ≤ column && !level.isBlock then
          { lexer with indent := level.column, levels }
        else lexer
      | [] => lexer
    if lexer.indent < column then
      let lexer := { lexer with
        indent := column
        levels := ⟨lexer.indent, true⟩ :: lexer.levels }
      match number with
      | some number => lexer.emitBefore number kind mark
      | none => lexer.emit kind mark
    else lexer

/-- Goes back over the levels deeper than `column`. The mark is that of the tokens which end their
blocks. -/
def closeLevels (column : Int) (mark : Mark) : Int → List Level → List Token × Int × List Level
  | indent, [] => ([], indent, [])
  | indent, level :: levels =>
    if column < indent then
      let (ends, rest) := closeLevels column mark level.column levels
      (if level.isBlock then ⟨.blockEnd, mark⟩ :: ends else ends, rest)
    else ([], indent, level :: levels)

/-- Closes the blocks that are indented deeper than `column`. -/
def closeBlocks (lexer : Lexer) (column : Int) : Lexer :=
  if lexer.inFlow then lexer
  else
    let (ends, indent, levels) := closeLevels column lexer.mark lexer.indent lexer.levels
    { lexer with queue := lexer.queue ++ ends, indent, levels }

/-- Asks one more column of what a block holds than of the block itself. -/
def deepen (lexer : Lexer) : Lexer :=
  if !lexer.inFlow && lexer.levels.head?.any Level.isBlock then
    { lexer with
      indent := lexer.indent + 1
      levels := ⟨lexer.indent, false⟩ :: lexer.levels }
  else lexer

/-- Drops the levels that belong to no block. -/
def dropLevels : Int → List Level → Int × List Level
  | indent, [] => (indent, [])
  | indent, level :: levels =>
    if level.isBlock then (indent, level :: levels) else dropLevels level.column levels

/-- Goes back to the indentation of the innermost block. -/
def undeepen (lexer : Lexer) : Lexer :=
  let (indent, levels) := dropLevels lexer.indent lexer.levels
  { lexer with indent, levels }

/-- Ends the pair without braces that is open in a flow sequence. -/
def closePair (lexer : Lexer) : Lexer :=
  if lexer.pairOpen then
    { lexer with pairOpen := false, explicitMapping := false }.emit .flowMappingEnd lexer.mark
  else lexer

end Lexer

end BuildGraph.Yaml
