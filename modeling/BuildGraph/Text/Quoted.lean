/-!
# Quoted text

Strings in JSON text. A quote, a backslash and the control characters below U+0020 are escaped, with
the short escapes where there is one and four lower-case hexadecimal digits otherwise; every other
character stands for itself.
-/

namespace BuildGraph.Text

/-- A hexadecimal digit in lower case. -/
def hexDigit (n : Nat) : Char :=
  if n < 10 then Char.ofNat (48 + n) else Char.ofNat (87 + n)

/-- The value of a hexadecimal digit in either case. -/
def hexValue? (c : Char) : Option Nat :=
  if c.isDigit then some (c.toNat - 48)
  else if 'a' ≤ c ∧ c ≤ 'f' then some (c.toNat - 87)
  else if 'A' ≤ c ∧ c ≤ 'F' then some (c.toNat - 55)
  else none

/-- The value of a run of hexadecimal digits. -/
def hexNumber? (cs : List Char) : Option Nat :=
  cs.foldlM (fun n c => (hexValue? c).map (16 * n + ·)) 0

/-- The written form of one character of a string. -/
def escape (c : Char) : List Char :=
  if c = '"' then ['\\', '"']
  else if c = '\\' then ['\\', '\\']
  else if c = '\x08' then ['\\', 'b']
  else if c = '\x0c' then ['\\', 'f']
  else if c = '\n' then ['\\', 'n']
  else if c = '\r' then ['\\', 'r']
  else if c = '\t' then ['\\', 't']
  else if c.toNat < 0x20 then
    ['\\', 'u', '0', '0', hexDigit (c.toNat / 16), hexDigit (c.toNat % 16)]
  else [c]

/-- The characters of a string between quotes. -/
def quote (s : String) : List Char :=
  '"' :: (s.toList.flatMap escape ++ ['"'])

/-- The characters of a string up to its closing quote, and what follows the quote. -/
def unquoteRest : List Char → Option (List Char × List Char)
  | [] => none
  | '"' :: rest => some ([], rest)
  | '\\' :: 'u' :: a :: b :: c :: d :: rest => do
    let n ← hexNumber? [a, b, c, d]
    let (cs, after) ← unquoteRest rest
    pure (Char.ofNat n :: cs, after)
  | '\\' :: c :: rest => do
    let plain ← match c with
      | '"' => some '"'
      | '\\' => some '\\'
      | '/' => some '/'
      | 'b' => some '\x08'
      | 'f' => some '\x0c'
      | 'n' => some '\n'
      | 'r' => some '\r'
      | 't' => some '\t'
      | _ => none
    let (cs, after) ← unquoteRest rest
    pure (plain :: cs, after)
  | c :: rest =>
    if c.toNat < 0x20 then none
    else (unquoteRest rest).map fun (cs, after) => (c :: cs, after)

/-- Reads a string in quotes from the front of a text. -/
def unquote? : List Char → Option (String × List Char)
  | '"' :: rest => (unquoteRest rest).map fun (cs, after) => (String.ofList cs, after)
  | _ => none

end BuildGraph.Text
