import BuildGraph.Yaml.Token.Block
import BuildGraph.Yaml.Token.Flow
import BuildGraph.Yaml.Token.Layout
import BuildGraph.Yaml.Token.Tag

/-!
# Reading tokens

`Token.ofText` turns a text into its tokens. Where the text is malformed the list ends with a token
that says so; a reader who needs no token beyond those in front of it never learns of it.
-/

namespace BuildGraph.Yaml.Lexer

/-- The greatest number of flow collections inside each other. -/
def maxFlowDepth : Nat := 255

/-- The state behind `c`, with keys allowed or not. -/
def goTo (lexer : Lexer) (c : Cursor) (keyAllowed : Bool) : Lexer :=
  { lexer with cursor := c, keyAllowed }

/-- Skips blanks, line breaks and comments in front of a token. Outside of flow collections a key may
begin on every new line. Tabs may not indent the content of a block. -/
def skipToToken : Lexer → Option Lexer :=
  Cursor.scan Lexer.cursor fun lexer =>
    let c := lexer.cursor
    match c.peek with
    | none => .done lexer
    | some ch =>
      if ch == '\t' && lexer.inBlock && c.indenting && (c.column : Int) < lexer.indent then
        match c.skipBlanks true with
        | some blanks =>
          if endsLine blanks.cursor.peek then .again { lexer with cursor := blanks.cursor }
          else .malformed
        | none => .malformed
      else if isBlank ch then .again { lexer with cursor := c.next }
      else if isBreak ch then
        .again (lexer.goTo c.breakLine (lexer.keyAllowed || !lexer.inFlow))
      else if ch == '#' then .again { lexer with cursor := c.skipLine }
      else .done lexer

/-- Skips what must separate the indicator of an explicit key from the key: spaces, line breaks and
comments, at least one space or line break among them. -/
def skipSeparation (lexer : Lexer) : Option Lexer := do
  let (lexer, separated) ← Cursor.scan (fun (l, _) => Lexer.cursor l) (fun (lexer, separated) =>
    let c := lexer.cursor
    match c.peek with
    | some ch =>
      if ch == ' ' then .again ({ lexer with cursor := c.next }, true)
      else if isBreak ch then
        .again (lexer.goTo c.breakLine (lexer.keyAllowed || !lexer.inFlow), true)
      else if ch == '#' then .again ({ lexer with cursor := c.skipLine }, separated)
      else .done (lexer, separated)
    | none => .done (lexer, separated)) (lexer, false)
  if separated then some lexer else none

/-- Closes everything that a directive or a document marker ends. -/
def closeDocument (lexer : Lexer) : Option Lexer := do
  let lexer ← (lexer.closeBlocks (-1)).dismiss
  pure { lexer with keyAllowed := false }

/-- The end of the text, which counts as a new line. -/
def readEnd (lexer : Lexer) : Option Lexer := do
  let here := lexer.mark
  let mark : Mark := if here.column = 0 then here else ⟨here.line + 1, 0⟩
  let lexer := { lexer with cursor := { lexer.cursor with mark } }
  if (lexer.candidate :: lexer.enclosing).any (·.any Candidate.required) then none
  else do
    let lexer := { lexer with
      candidate := none
      enclosing := lexer.enclosing.map fun _ => none
      ended := true }
    let lexer ← lexer.closeDocument
    pure (lexer.emit .streamEnd mark)

/-- A directive. -/
def readDirective (lexer : Lexer) : Option Lexer := do
  let lexer ← lexer.closeDocument
  let (kind, after) ← Directive.read lexer.cursor
  pure ({ lexer with cursor := after }.emit kind lexer.mark)

/-- The marker of the start of a document. -/
def readDocumentStart (lexer : Lexer) : Option Lexer := do
  let lexer ← lexer.closeDocument
  pure ({ lexer with cursor := lexer.cursor.skip 3 }.emit .documentStart lexer.mark)

/-- The marker of the end of a document, behind which only a comment may stand. -/
def readDocumentEnd (lexer : Lexer) : Option Lexer := do
  let lexer ← lexer.closeDocument
  let blanks ← (lexer.cursor.skip 3).skipBlanks true
  if endsLine blanks.cursor.peek then
    some ({ lexer with cursor := blanks.cursor }.emit .documentEnd lexer.mark)
  else none

/-- The start of a flow collection. It may be a key. -/
def readFlowStart (isMapping : Bool) (lexer : Lexer) : Option Lexer := do
  let start := lexer.mark
  let lexer := lexer.propose.deepen
  if lexer.enclosing.length ≥ maxFlowDepth then none
  else do
    let blanks ← lexer.cursor.next.skipBlanks true
    let lexer := { lexer with
      cursor := blanks.cursor
      keyAllowed := true
      candidate := none
      enclosing := lexer.candidate :: lexer.enclosing }
    pure (if isMapping then { lexer with explicitMapping := true }.emit .flowMappingStart start
      else lexer.emit .flowSequenceStart start)

/-- The end of a flow collection. -/
def readFlowEnd (isMapping : Bool) (lexer : Lexer) : Option Lexer := do
  let start := lexer.mark
  let lexer ← lexer.dismiss
  let lexer := match lexer.enclosing with
    | outer :: enclosing => { lexer with candidate := outer, enclosing }
    | [] => lexer
  let lexer := if isMapping then lexer else lexer.closePair
  let blanks ← lexer.cursor.next.skipBlanks true
  let c := blanks.cursor
  let lexer := { lexer with
    cursor := c
    keyAllowed := false
    adjacent := if lexer.inFlow then c.offset else lexer.adjacent }
  pure (lexer.emit (if isMapping then .flowMappingEnd else .flowSequenceEnd) start)

/-- The comma between the entries of a flow collection. -/
def readFlowEntry (lexer : Lexer) : Option Lexer := do
  let start := lexer.mark
  let lexer := (← lexer.dismiss).closePair
  let blanks ← lexer.cursor.next.skipBlanks true
  pure ((lexer.goTo blanks.cursor true).emit .flowEntry start)

/-- Whether an anchor or tag at the start of a line is the last token. -/
def afterProperty (lexer : Lexer) : Bool :=
  match lexer.queue.getLast? with
  | some ⟨.anchor _, mark⟩ | some ⟨.tag _, mark⟩ => mark.column == 0
  | _ => false

/-- The hyphen in front of an entry of a block sequence. -/
def readBlockEntry (lexer : Lexer) : Option Lexer := do
  let start := lexer.mark
  if lexer.inFlow || !lexer.keyAllowed ||
      (lexer.afterProperty && start.column = 0 && lexer.indent > -1) then none
  else do
    let c := lexer.cursor.next
    let lexer := lexer.openBlock start.column none .blockSequenceStart start
    let blanks ← c.skipBlanks true
    let c := blanks.cursor
    if blanks.sawTab && c.at? '-' && endsWord c.peekSecond then none
    else do
      let c := (← c.skipBlanks false).cursor
      let lexer := if c.peek.any fun ch => isBreak ch || isFlow ch then lexer.deepen else lexer
      let lexer ← lexer.dismiss
      pure ((lexer.goTo c true).emit .blockEntry c.mark)

/-- The indicator of an explicit key. -/
def readKey (lexer : Lexer) : Option Lexer := do
  let start := lexer.mark
  if !lexer.inFlow && !lexer.keyAllowed then none
  else do
    let lexer := if lexer.inFlow then { lexer with explicitMapping := true }
      else lexer.openBlock start.column none .blockMappingStart start
    let lexer ← lexer.dismiss
    let lexer ← (lexer.goTo lexer.cursor.next (!lexer.inFlow)).skipSeparation
    if lexer.cursor.at? '\t' then none else some (lexer.emit .key start)

/-- Makes the candidate a key, and opens the mapping that it is the first key of. -/
def confirm (lexer : Lexer) (candidate : Candidate) (colon : Mark) (opensPair : Bool) :
    Option Lexer := do
  let lexer := lexer.emitBefore candidate.number .key candidate.mark
  let lexer ← if !opensPair then some lexer
    else if candidate.mark.line < colon.line then none
    else some (lexer.emitBefore candidate.number .flowMappingStart lexer.mark)
  let lexer := lexer.openBlock candidate.mark.column (some candidate.number) .blockMappingStart colon
  pure { lexer.deepen with candidate := none, keyAllowed := false }

/-- The colon in front of a value. -/
def readValue (lexer : Lexer) : Option Lexer := do
  let colon := lexer.mark
  let opensPair := lexer.inFlow && !lexer.explicitMapping
  let lexer := { lexer with pairOpen := opensPair }
  let c := lexer.cursor.next
  let blanks ← if c.at? '\t' then c.skipBlanks true else some ⟨c, true, false⟩
  let c := blanks.cursor
  if !blanks.sawSpace && c.peek.any fun ch => ch == '-' || isName ch then none
  else do
    let lexer := { lexer with cursor := c }
    let lexer ← match lexer.candidate with
      | some candidate => lexer.confirm candidate colon opensPair
      | none =>
        let lexer := if opensPair then lexer.emit .flowMappingStart colon else lexer
        if lexer.inFlow then some { lexer.deepen with keyAllowed := false }
        else if !lexer.keyAllowed then none
        else
          let lexer := lexer.openBlock colon.column none .blockMappingStart colon
          some { lexer.deepen with keyAllowed := true }
    pure (lexer.emit .value colon)

/-- A token that may begin a key and is read by itself. -/
def readWord (lexer : Lexer) (read : Cursor → Option (TokenKind × Cursor)) : Option Lexer := do
  let start := lexer.mark
  let lexer := lexer.propose
  let (kind, after) ← read lexer.cursor
  pure ((lexer.goTo after false).emit kind start)

/-- An anchor or alias. -/
def readAnchor (kind : String → TokenKind) (lexer : Lexer) : Option Lexer :=
  lexer.readWord fun c => (Anchor.read c).map fun (name, after) => (kind name, after)

/-- A tag. -/
def readTag (lexer : Lexer) : Option Lexer :=
  lexer.readWord fun c => (Tag.read lexer.inFlow c).map fun (handle, after) => (.tag handle, after)

/-- A scalar in quotes, and what separates it from the next token. -/
def readQuoted (single : Bool) (lexer : Lexer) : Option Lexer := do
  let start := lexer.mark
  let lexer := lexer.propose
  let (text, after) ← Quoted.read single lexer.inFlow lexer.indent lexer.cursor
  let lexer ← (lexer.goTo after false).skipToToken
  let style := if single then Style.singleQuoted else Style.doubleQuoted
  pure ({ lexer with adjacent := lexer.cursor.offset }.emit (.scalar text style) start)

/-- A plain scalar. A key may begin behind it if it took the end of its line with it. -/
def readPlain (lexer : Lexer) : Option Lexer := do
  let start := lexer.mark
  let lexer := lexer.propose.undeepen
  let (text, after) ← Plain.read lexer.inFlow (lexer.indent + 1) lexer.cursor
  pure ((lexer.goTo after after.indenting).emit (.scalar text .plain) start)

/-- A literal or folded scalar. -/
def readBlock (literal : Bool) (lexer : Lexer) : Option Lexer := do
  let lexer := lexer.propose.undeepen
  let scalar ← Block.read literal lexer.indent lexer.cursor
  let style := if literal then Style.literal else Style.folded
  pure ((lexer.goTo scalar.cursor true).emit (.scalar scalar.text style) scalar.mark)

/-- Reads a token by its first character `ch` and the one behind it. -/
def dispatch (lexer : Lexer) (ch : Char) (next : Option Char) : Option Lexer :=
  let alone := endsWord next
  match ch with
  | '[' => lexer.readFlowStart false
  | '{' => lexer.readFlowStart true
  | ']' => lexer.readFlowEnd false
  | '}' => lexer.readFlowEnd true
  | ',' => lexer.readFlowEntry
  | '-' => if alone then lexer.readBlockEntry else lexer.readPlain
  | '?' => if alone then lexer.readKey else lexer.readPlain
  | ':' =>
    if alone || (lexer.inFlow && (next.any isFlow || lexer.cursor.offset == lexer.adjacent)) then
      lexer.readValue
    else lexer.readPlain
  | '*' => lexer.readAnchor .alias
  | '&' => lexer.readAnchor .anchor
  | '!' => lexer.readTag
  | '|' => if lexer.inFlow then lexer.readPlain else lexer.readBlock true
  | '>' => if lexer.inFlow then lexer.readPlain else lexer.readBlock false
  | '\'' => lexer.readQuoted true
  | '"' => lexer.readQuoted false
  | '%' | '@' | '\x60' => none
  | _ => lexer.readPlain

/-- Reads the next token, and adds it and what it entails to the tokens held back. -/
def advance (lexer : Lexer) : Option Lexer := do
  let lexer ← (← lexer.skipToToken).dismissStale
  let c := lexer.cursor
  let lexer := lexer.closeBlocks c.column
  match c.peek with
  | none => lexer.readEnd
  | some ch =>
    if c.column = 0 && ch == '%' then lexer.readDirective
    else if c.column = 0 && c.atMarker '-' then lexer.readDocumentStart
    else if c.column = 0 && c.atMarker '.' then lexer.readDocumentEnd
    else if (c.column : Int) < lexer.indent then none
    else lexer.dispatch ch c.peekSecond

/-- Hands out the tokens that are no longer held back. Gives them with the state left, or without
one if a required key is missing. -/
def release : List Token → Lexer → List Token × Option Lexer
  | [], lexer => ([], some { lexer with queue := [] })
  | token :: queue, lexer =>
    match lexer.dismissStale with
    | none => ([], none)
    | some lexer =>
      if lexer.holdsBack then ([], some { lexer with queue := token :: queue })
      else
        let (tokens, rest) := release queue { lexer with released := lexer.released + 1 }
        (token :: tokens, rest)

/-- All tokens from a state on. -/
def tokens (lexer : Lexer) : List Token :=
  match lexer.advance with
  | none => [⟨.malformed, lexer.mark⟩]
  | some next =>
    match release next.queue next with
    | (ready, none) => ready ++ [⟨.malformed, next.mark⟩]
    | (ready, some left) =>
      if left.ended then ready
      else if left.cursor.rest.length < lexer.cursor.rest.length then ready ++ left.tokens
      else ready ++ [⟨.malformed, left.mark⟩]
termination_by lexer.cursor.rest.length

end BuildGraph.Yaml.Lexer

namespace BuildGraph.Yaml.Token

/-- The tokens of a text. A null character ends the text. -/
def ofText (text : String) : List Token :=
  Lexer.tokens { cursor := { rest := text.toList.takeWhile (· != '\x00') } }

end BuildGraph.Yaml.Token
