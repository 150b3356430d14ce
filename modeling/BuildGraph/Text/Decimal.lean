/-!
# Decimal integers

Signed 64-bit integers in canonical decimal form: no leading zero, no plus sign, no minus zero. The
reader accepts a text exactly when writing the integer gives the same text back.
-/

namespace BuildGraph.Text

/-- The integers that fit into a signed 64-bit word. -/
def inWordRange (i : Int) : Bool :=
  decide (-9223372036854775808 ≤ i) && decide (i < 9223372036854775808)

/-- The value of a nonempty run of decimal digits. -/
def digitsValue? (cs : List Char) : Option Nat :=
  if !cs.isEmpty && cs.all Char.isDigit then some (Nat.ofDigitChars 10 cs 0) else none

/-- The value of a run of decimal digits with an optional minus sign. -/
def signedValue? : List Char → Option Int
  | '-' :: digits => (digitsValue? digits).map fun n => -(n : Int)
  | digits => (digitsValue? digits).map fun n => (n : Int)

/-- The integer of which `s` is the canonical decimal form. -/
def readInt? (s : String) : Option Int :=
  (signedValue? s.toList).filter fun i => inWordRange i && toString i == s

/-- Whatever is read is in range and is written as the text it was read from. -/
theorem toString_of_readInt? {s : String} {i : Int} (h : readInt? s = some i) :
    inWordRange i = true ∧ toString i = s := by
  rw [readInt?, Option.filter_eq_some_iff] at h
  simpa using h.2

end BuildGraph.Text
