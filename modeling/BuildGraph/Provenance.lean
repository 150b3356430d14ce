import BuildGraph.Text.Decimal
import BuildGraph.Text.Quoted

/-!
# Provenance

Where a value was written: a file name, a line counted from 1 and a column counted from 0, both in
characters. Every node of a document carries one, so that it travels with the node from document to
document and a message about a composed document still names the file at fault.
-/

namespace BuildGraph

/-- The place in a file where something was declared. -/
structure Provenance where
  /-- Project-relative name of the file. -/
  file : String
  /-- Line, counted from 1. -/
  line : Nat
  /-- Column, counted from 0. -/
  column : Nat
  deriving DecidableEq, Repr, Inhabited

namespace Provenance

/-- The start of a file, the place of a document with nothing in it. -/
def fileStart (file : String) : Provenance :=
  ⟨file, 1, 0⟩

/-- The place as it stands in front of messages. -/
def text (p : Provenance) : String :=
  p.file ++ " [line " ++ toString p.line ++ " column " ++ toString p.column ++ "]"

/-- Reading order inside one file. -/
def precedes (p q : Provenance) : Bool :=
  p.line < q.line || (p.line == q.line && p.column < q.column)

/-- The place as a JSON object with the members `file`, `line` and `col`. -/
def json (p : Provenance) : String :=
  String.ofList ("\x7b\"file\":".toList ++ Text.quote p.file ++ ",\"line\":".toList ++
    (toString p.line).toList ++ ",\"col\":".toList ++ (toString p.column).toList ++ ['}'])

/-- What is left of a text after a literal beginning. -/
def expect? : List Char → List Char → Option (List Char)
  | [], rest => some rest
  | c :: literal, d :: rest => if c = d then expect? literal rest else none
  | _ :: _, [] => none

/-- A natural number at the front of a text, and what follows it. -/
def natural? (cs : List Char) : Option (Nat × List Char) :=
  (Text.digitsValue? (cs.takeWhile Char.isDigit)).map (·, cs.dropWhile Char.isDigit)

/-- Reads back what `json` writes. -/
def ofJson? (s : String) : Option Provenance := do
  let rest ← expect? "\x7b\"file\":".toList s.toList
  let (file, rest) ← Text.unquote? rest
  let rest ← expect? ",\"line\":".toList rest
  let (line, rest) ← natural? rest
  let rest ← expect? ",\"col\":".toList rest
  let (column, rest) ← natural? rest
  if rest = ['}'] then some ⟨file, line, column⟩ else none

end Provenance

/-- A message with the place it is about in front of it, where there is one. -/
def located (place : Option Provenance) (message : String) : String :=
  match place with
  | some p => p.text ++ ": " ++ message
  | none => message

end BuildGraph
