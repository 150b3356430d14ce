import BuildGraph.Yaml.Event
import BuildGraph.Yaml.Token.Lexer

/-!
# The grammar of YAML

`Event.ofText?` reads the first document of a text as events. The grammar is a list of goals, what
is still to be read of the open collections, the innermost first. Each goal is met by looking at one
or two tokens: it may take tokens, tell events and leave other goals in its place.
-/

namespace BuildGraph.Yaml

/-- A part of a document that is still to be read. -/
inductive Goal
  /-- A node. Block collections may or may not be allowed, and so may a block sequence that is not
  indented. -/
  | node (block unindented : Bool)
  /-- An entry of a block sequence, or its end. -/
  | blockEntry
  /-- An entry of a block sequence that is not indented, or its end. -/
  | unindentedEntry
  /-- A key of a block mapping, or its end. -/
  | blockKey
  /-- The value behind a key of a block mapping. -/
  | blockValue
  /-- An entry of a flow sequence, or its end. -/
  | flowEntry (first : Bool)
  /-- The key of a pair in a flow sequence. -/
  | pairKey
  /-- The value of a pair in a flow sequence. -/
  | pairValue
  /-- The end of a pair in a flow sequence. -/
  | pairEnd
  /-- A key of a flow mapping, or its end. -/
  | flowKey (first : Bool)
  /-- The value behind a key of a flow mapping. -/
  | flowValue
  /-- The value that a key of a flow mapping does not have. -/
  | missingValue
  deriving DecidableEq, Repr

/-- A document of which a part is read. -/
structure Reading where
  tokens : List Token
  goals : List Goal := []
  /-- The events so far, the last one first. -/
  events : List MarkedEvent := []
  /-- The number of each anchor name, the last one set first. -/
  anchors : List (String × Nat) := []
  /-- The tag handles that were declared. -/
  handles : List String := []

namespace Reading

/-- The kind of the next token. -/
def kind (r : Reading) : TokenKind := (r.tokens.head?.map Token.kind).getD .malformed

/-- The place of the next token. -/
def mark (r : Reading) : Mark := (r.tokens.head?.map Token.mark).getD default

/-- Takes the next token. -/
def take (r : Reading) : Reading := { r with tokens := r.tokens.tail }

/-- Tells an event. -/
def tell (r : Reading) (event : Event) (mark : Mark) : Reading :=
  { r with events := ⟨event, mark⟩ :: r.events }

/-- Tells a scalar that is not there. -/
def tellEmpty (r : Reading) (mark : Mark) : Reading := r.tell (.scalar "" .plain none) mark

/-- Sets goals before all others. -/
def want (r : Reading) (goals : List Goal) : Reading := { r with goals := goals ++ r.goals }

/-- Takes an anchor, if there is one, and gives it a number. -/
def takeAnchor (r : Reading) : Option Nat × Reading :=
  match r.kind with
  | .anchor name =>
    let number := r.anchors.length + 1
    (some number, { r.take with anchors := (name, number) :: r.anchors })
  | _ => (none, r)

/-- Takes a tag, if there is one, and tells whether there was. A handle that closes with an
exclamation mark must have been declared. -/
def takeTag (r : Reading) : Option (Bool × Reading) :=
  match r.kind with
  | .tag handle =>
    if Tag.isClosed handle && handle != "!!" && !r.handles.contains handle then none
    else some (true, r.take)
  | _ => some (false, r)

/-- Takes an anchor and a tag in either order. -/
def takeProperties (r : Reading) : Option (Option Nat × Bool × Reading) := do
  match r.takeAnchor with
  | (some anchor, r) =>
    let (tagged, r) ← r.takeTag
    pure (some anchor, tagged, r)
  | (none, r) =>
    match ← r.takeTag with
    | (true, r) =>
      let (anchor, r) := r.takeAnchor
      pure (anchor, true, r)
    | (false, r) => pure (none, false, r)

/-- Reads the node itself, behind its properties. Behind an anchor or a tag it may be missing. -/
def readContent (r : Reading) (block unindented : Bool) (anchor : Option Nat) (tagged : Bool) :
    Option Reading :=
  let missing := if tagged || anchor.isSome then
      some (r.tell (.scalar "" .plain anchor) r.mark)
    else none
  match r.kind with
  | .blockEntry =>
    if unindented then some ((r.tell (.sequenceStart anchor) r.mark).want [.unindentedEntry])
    else missing
  | .scalar text style => some (r.take.tell (.scalar text style anchor) r.mark)
  | .flowSequenceStart => some ((r.take.tell (.sequenceStart anchor) r.mark).want [.flowEntry true])
  | .flowMappingStart => some ((r.take.tell (.mappingStart anchor) r.mark).want [.flowKey true])
  | .blockSequenceStart =>
    if block then some ((r.take.tell (.sequenceStart anchor) r.mark).want [.blockEntry])
    else missing
  | .blockMappingStart =>
    if block then some ((r.take.tell (.mappingStart anchor) r.mark).want [.blockKey])
    else missing
  | _ => missing

/-- Reads a node. An alias stands for the anchor that its name was last given to. -/
def readNode (r : Reading) (block unindented : Bool) : Option Reading :=
  match r.kind with
  | .alias name => (r.anchors.lookup name).map fun anchor => r.take.tell (.alias anchor) r.mark
  | _ => do
    let (anchor, tagged, r) ← r.takeProperties
    r.readContent block unindented anchor tagged

/-- Goes on with a node of a block, unless the next token shows that it is missing. -/
def nodeUnless (missing : TokenKind → Bool) (node next : Goal) (r : Reading) : Reading :=
  if missing r.kind then (r.tellEmpty r.mark).want [next] else r.want [node, next]

/-- Whether a token ends an entry of a block mapping. -/
def endsBlockMember : TokenKind → Bool
  | .key | .value | .blockEnd => true
  | _ => false

/-- Whether a token ends an entry of a block sequence. -/
def endsBlockEntry : TokenKind → Bool
  | .blockEntry | .blockEnd => true
  | _ => false

/-- Whether a token ends an entry of a block sequence that is not indented. -/
def endsUnindentedEntry : TokenKind → Bool
  | .blockEntry | .key | .value | .blockEnd => true
  | _ => false

/-- Whether a token ends an entry of a flow sequence. -/
def endsFlowEntry : TokenKind → Bool
  | .flowEntry | .flowSequenceEnd => true
  | _ => false

/-- Whether a token ends an entry of a flow mapping. -/
def endsFlowMember : TokenKind → Bool
  | .flowEntry | .flowMappingEnd => true
  | _ => false

/-- Reads an entry of a flow sequence, behind the comma in front of it. -/
def readFlowEntry (r : Reading) : Option Reading :=
  match r.kind with
  | .flowSequenceEnd => some (r.take.tell .sequenceEnd r.mark)
  | .key => some ((r.take.tell (.mappingStart none) r.mark).want [.pairKey, .flowEntry false])
  | _ => some (r.want [.node false false, .flowEntry false])

/-- Reads a key of a flow mapping, behind the comma in front of it. -/
def readFlowKey (r : Reading) : Option Reading :=
  match r.kind with
  | .key =>
    some (r.take.nodeUnless (fun k => k == .value || endsFlowMember k) (.node false false) .flowValue)
  | .value => some ((r.tellEmpty r.mark).want [.flowValue])
  | .flowMappingEnd => some (r.take.tell .mappingEnd r.mark)
  | _ => some (r.want [.node false false, .missingValue])

/-- Meets a goal, if the tokens allow it. -/
def meet (r : Reading) : Goal → Option Reading
  | .node block unindented => r.readNode block unindented
  | .blockEntry =>
    match r.kind with
    | .blockEntry => some (r.take.nodeUnless endsBlockEntry (.node true false) .blockEntry)
    | .blockEnd => some (r.take.tell .sequenceEnd r.mark)
    | _ => none
  | .unindentedEntry =>
    match r.kind with
    | .blockEntry => some (r.take.nodeUnless endsUnindentedEntry (.node true false) .unindentedEntry)
    | _ => some (r.tell .sequenceEnd r.mark)
  | .blockKey =>
    match r.kind with
    | .key => some (r.take.nodeUnless endsBlockMember (.node true true) .blockValue)
    | .value => some ((r.tellEmpty r.mark).want [.blockValue])
    | .blockEnd => some (r.take.tell .mappingEnd r.mark)
    | _ => none
  | .blockValue =>
    match r.kind with
    | .value => some (r.take.nodeUnless endsBlockMember (.node true true) .blockKey)
    | _ => some ((r.tellEmpty r.mark).want [.blockKey])
  | .flowEntry first =>
    if first || r.kind == .flowSequenceEnd then r.readFlowEntry
    else if r.kind == .flowEntry then r.take.readFlowEntry
    else none
  | .pairKey =>
    if r.kind == .value || endsFlowEntry r.kind then
      some ((r.take.tellEmpty r.mark).want [.pairValue])
    else some (r.want [.node false false, .pairValue])
  | .pairValue =>
    match r.kind with
    | .value => some (r.take.nodeUnless endsFlowEntry (.node false false) .pairEnd)
    | _ => some ((r.tellEmpty r.mark).want [.pairEnd])
  | .pairEnd => some (r.tell .mappingEnd r.mark)
  | .flowKey first =>
    if first || r.kind == .flowMappingEnd then r.readFlowKey
    else if r.kind == .flowEntry then r.take.readFlowKey
    else none
  | .flowValue =>
    match r.kind with
    | .value =>
      if endsFlowMember r.take.kind then some ((r.take.tellEmpty r.mark).want [.flowKey false])
      else some (r.take.want [.node false false, .flowKey false])
    | _ => some ((r.tellEmpty r.mark).want [.flowKey false])
  | .missingValue => some ((r.tellEmpty r.mark).want [.flowKey false])

/-- Meets goals until none is left, at most `steps` of them. -/
def run : Nat → Reading → Option Reading
  | 0, _ => none
  | steps + 1, r =>
    match r.goals with
    | [] => some r
    | goal :: goals => ({ r with goals }.meet goal).bind (run steps)

/-- Enough steps for any document: no token is looked at by more than six goals. -/
def stepLimit (r : Reading) : Nat := 6 * r.tokens.length + 6

/-- Takes the directives in front of a document, and tells the tag handles that stay declared. At
most one directive may be a version, and only the last directive has a lasting effect. -/
def takeDirectives (versioned : Bool) (handles : List String) :
    List Token → Option (List String × List Token)
  | ⟨.versionDirective, _⟩ :: tokens =>
    if versioned then none else takeDirectives true [] tokens
  | ⟨.tagDirective handle, _⟩ :: tokens => takeDirectives versioned [handle] tokens
  | tokens => some (handles, tokens)

/-- Whether a token shows that a document between markers has no content. -/
def endsDocument : TokenKind → Bool
  | .versionDirective | .tagDirective _ | .documentStart | .documentEnd | .streamEnd => true
  | _ => false

/-- Starts the first document of a stream, if there is one, with the goal of its root. Behind
directives the document needs a marker. -/
def start (tokens : List Token) : Option Reading := do
  let tokens := tokens.dropWhile fun t => t.kind == .documentEnd
  let (handles, content) ← takeDirectives false [] tokens
  match content with
  | ⟨.documentStart, _⟩ :: content =>
    let r : Reading := { tokens := content, handles }
    pure (if endsDocument r.kind then r.tellEmpty r.mark else r.want [.node true false])
  | ⟨kind, _⟩ :: _ =>
    if content.length < tokens.length then none
    else if kind == .streamEnd then some { tokens }
    else some { tokens, goals := [.node true false] }
  | [] => none

end Reading

/-- The events of the first document among the tokens, none if the tokens do not follow the grammar.
Behind the document there may be no directive, unless it is ended by a marker. -/
def Event.ofTokens? (tokens : List Token) : Option (List MarkedEvent) := do
  let start ← Reading.start tokens
  let final ← Reading.run start.stepLimit start
  match final.kind with
  | .versionDirective | .tagDirective _ | .malformed => none
  | _ => some final.events.reverse

/-- The events of the first document of a text, none if it is malformed. -/
def Event.ofText? (text : String) : Option (List MarkedEvent) :=
  Event.ofTokens? (Token.ofText text)

end BuildGraph.Yaml
