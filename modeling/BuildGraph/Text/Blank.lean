/-!
# Blank characters

The code points with the Unicode property `White_Space`, and the trimming of a text at both ends by
that property. Zero-width characters and the byte order mark are not blank.
-/

namespace BuildGraph.Text

/-- Whether a character has the Unicode property `White_Space`. -/
def isBlank (c : Char) : Bool :=
  let n := c.toNat
  (0x09 ≤ n && n ≤ 0x0D) || n == 0x20 || n == 0x85 || n == 0xA0 || n == 0x1680 ||
    (0x2000 ≤ n && n ≤ 0x200A) || n == 0x2028 || n == 0x2029 || n == 0x202F || n == 0x205F ||
    n == 0x3000

/-- The characters of a text without the blank ones at either end. -/
def trimChars (cs : List Char) : List Char :=
  ((cs.dropWhile isBlank).reverse.dropWhile isBlank).reverse

/-- A text without the blank characters at either end. -/
def trim (s : String) : String :=
  String.ofList (trimChars s.toList)

/-- A text that neither begins nor ends with a blank is left alone. -/
theorem trimChars_of_not_blank {cs : List Char}
    (hfirst : ∀ c ∈ cs.head?, isBlank c = false) (hlast : ∀ c ∈ cs.getLast?, isBlank c = false) :
    trimChars cs = cs := by
  have hleft : cs.dropWhile isBlank = cs := by
    cases cs with
    | nil => rfl
    | cons c rest => simp [List.dropWhile, hfirst c (by simp)]
  have hright : cs.reverse.dropWhile isBlank = cs.reverse := by
    cases h : cs.reverse with
    | nil => rfl
    | cons c rest =>
      have : c ∈ cs.getLast? := by
        rw [← List.head?_reverse, h]
        simp
      simp [List.dropWhile, hlast c this]
  rw [trimChars, hleft, hright, List.reverse_reverse]

end BuildGraph.Text
