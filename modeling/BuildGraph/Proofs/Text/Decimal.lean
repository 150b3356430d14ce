import BuildGraph.Text.Decimal
import BuildGraph.Text.Blank
import Mathlib.Algebra.Ring.Int.Defs
import Mathlib.Data.List.Basic
import Mathlib.Data.List.Induction

/-!
# Decimal forms of integers

The canonical decimal form of an integer is a numeral without a leading zero, behind a minus sign if the
integer is negative, and every such text is the form of an integer.
-/

namespace BuildGraph.Text

/-- Whether a character stands in the decimal form of integers. -/
def isDecimal (c : Char) : Bool := c.isDigit || c == '-'

/-- Decimal digits, the first of which is zero only if it is the only one. -/
structure IsNumeral (cs : List Char) : Prop where
  nonempty : cs ≠ []
  digits : ∀ c ∈ cs, c.isDigit = true
  leading : cs.head? = some '0' → cs = ['0']

/-- Whether characters are an integer in canonical decimal form: a numeral, or a minus sign and a
numeral other than zero. -/
def IsCanonical (cs : List Char) : Prop :=
  IsNumeral cs ∨ ∃ digits, cs = '-' :: digits ∧ IsNumeral digits ∧ digits ≠ ['0']

theorem toDigits_eq_zero_iff {n : Nat} : Nat.toDigits 10 n = ['0'] ↔ n = 0 := by
  constructor
  · intro h
    rw [← Nat.ofDigitChars_ten_toDigits (n := n), h]
    rfl
  · rintro rfl
    rfl

theorem isNumeral_toDigits (n : Nat) : IsNumeral (Nat.toDigits 10 n) where
  nonempty := Nat.toDigits_ne_nil
  digits _ hc := Nat.isDigit_of_mem_toDigits (by decide) (by decide) hc
  leading := by
    induction n using Nat.strongRecOn with
    | ind n ih =>
      rw [Nat.toDigits_eq_if (by decide)]
      split
      · intro h
        rw [List.head?_cons, Option.some.injEq] at h
        rw [h]
      · next hn =>
        intro h
        rw [List.head?_append_of_ne_nil _ Nat.toDigits_ne_nil] at h
        have hzero : n / 10 = 0 := toDigits_eq_zero_iff.1 (ih (n / 10) (by omega) h)
        omega

theorem exists_digitChar {c : Char} (h : c.isDigit = true) : ∃ d < 10, c = Nat.digitChar d := by
  have hbounds : 48 ≤ c.toNat ∧ c.toNat ≤ 57 := by
    simpa [Char.isDigit, UInt32.le_iff_toNat_le] using h
  refine ⟨c.toNat - 48, by omega, Char.toNat_inj.1 ?_⟩
  rw [Nat.toNat_digitChar_of_lt_ten (by omega)]
  omega

/-- A numeral is the decimal form of its value. -/
theorem toDigits_ofDigitChars {cs : List Char} (h : IsNumeral cs) :
    Nat.toDigits 10 (Nat.ofDigitChars 10 cs 0) = cs := by
  induction cs using List.reverseRecOn with
  | nil => exact absurd rfl h.nonempty
  | append_singleton cs c ih =>
    obtain ⟨d, hd, rfl⟩ := exists_digitChar (h.digits c (by simp))
    rw [Nat.ofDigitChars_append, Nat.ofDigitChars_cons_digitChar_of_lt_ten hd, Nat.ofDigitChars_nil]
    by_cases hcs : cs = []
    · subst hcs
      rw [Nat.ofDigitChars_nil, Nat.mul_zero, Nat.zero_add, Nat.toDigits_of_lt_base hd]
      rfl
    · have hhead : cs.head? ≠ some '0' := by
        intro hzero
        have hall := h.leading (by rw [List.head?_append_of_ne_nil _ hcs, hzero])
        simp [List.append_eq_singleton_iff, hcs] at hall
      have hdigits : Nat.toDigits 10 (Nat.ofDigitChars 10 cs 0) = cs :=
        ih ⟨hcs, fun c hc => h.digits c (List.mem_append_left _ hc), fun hzero => absurd hzero hhead⟩
      have hpos : 0 < Nat.ofDigitChars 10 cs 0 := by
        refine Nat.pos_of_ne_zero fun hzero => hhead ?_
        rw [← hdigits, hzero]
        rfl
      rw [← Nat.toDigits_append_toDigits (by decide) hpos hd, hdigits, Nat.toDigits_of_lt_base hd]

theorem toList_toString_natCast (n : Nat) : (toString (n : Int)).toList = Nat.toDigits 10 n := by
  rw [Int.toString_eq_repr, Int.repr_eq_if, if_pos (Int.natCast_nonneg n), Int.toNat_natCast,
    Nat.toList_repr]

theorem toList_toString_neg {n : Nat} (h : n ≠ 0) :
    (toString (-(n : Int))).toList = '-' :: Nat.toDigits 10 n := by
  have hneg : ¬0 ≤ -(n : Int) := by omega
  rw [Int.toString_eq_repr, Int.repr_eq_if, if_neg hneg, Int.neg_neg, Int.toNat_natCast,
    String.toList_append, Nat.toList_repr]
  rfl

/-- An integer is written as a numeral, or as a minus sign and a numeral other than zero. -/
theorem toList_toString_cases (i : Int) :
    (∃ n : Nat, i = n ∧ (toString i).toList = Nat.toDigits 10 n) ∨
      ∃ n : Nat, n ≠ 0 ∧ i = -n ∧ (toString i).toList = '-' :: Nat.toDigits 10 n := by
  obtain ⟨n, rfl | rfl⟩ := Int.eq_nat_or_neg i
  · exact .inl ⟨n, rfl, toList_toString_natCast n⟩
  · by_cases h : n = 0
    · subst h
      exact .inl ⟨0, rfl, rfl⟩
    · exact .inr ⟨n, h, rfl, toList_toString_neg h⟩

theorem digitsValue?_toDigits (n : Nat) : digitsValue? (Nat.toDigits 10 n) = some n := by
  have hdigits : (Nat.toDigits 10 n).all Char.isDigit = true :=
    List.all_eq_true.2 (isNumeral_toDigits n).digits
  have hne : (Nat.toDigits 10 n).isEmpty = false := List.isEmpty_eq_false_iff.2 Nat.toDigits_ne_nil
  rw [digitsValue?, hdigits, hne, Nat.ofDigitChars_ten_toDigits]
  rfl

theorem IsNumeral.ne_minus {digits cs : List Char} (h : IsNumeral cs) : cs ≠ '-' :: digits := by
  rintro rfl
  exact absurd (h.digits '-' List.mem_cons_self) (by decide)

/-- Reading the decimal form of an integer gives the integer. -/
theorem signedValue?_toString (i : Int) : signedValue? (toString i).toList = some i := by
  rcases toList_toString_cases i with ⟨n, hi, hform⟩ | ⟨n, -, hi, hform⟩
  · rw [hform, signedValue?, digitsValue?_toDigits, hi]
    · rfl
    · exact fun digits => (isNumeral_toDigits n).ne_minus
  · rw [hform, signedValue?, digitsValue?_toDigits, hi]
    rfl

/-- The integers that are read are those of a signed 64-bit word, each from its decimal form. -/
theorem readInt?_eq_some_iff {s : String} {i : Int} :
    readInt? s = some i ↔ (-2 ^ 63 ≤ i ∧ i < 2 ^ 63) ∧ toString i = s := by
  have hrange : inWordRange i = true ↔ -2 ^ 63 ≤ i ∧ i < 2 ^ 63 := by
    rw [inWordRange, Bool.and_eq_true, decide_eq_true_eq, decide_eq_true_eq]
    rfl
  rw [← hrange]
  constructor
  · exact toString_of_readInt?
  · rintro ⟨hword, rfl⟩
    rw [readInt?, signedValue?_toString, Option.filter_some, hword, beq_self_eq_true]
    rfl

/-- The decimal forms of integers are the texts in canonical form. -/
theorem exists_toString_eq_iff {s : String} : (∃ i : Int, toString i = s) ↔ IsCanonical s.toList := by
  constructor
  · rintro ⟨i, rfl⟩
    rcases toList_toString_cases i with ⟨n, -, hform⟩ | ⟨n, hn, -, hform⟩
    · rw [hform]
      exact .inl (isNumeral_toDigits n)
    · rw [hform]
      exact .inr ⟨_, rfl, isNumeral_toDigits n, mt toDigits_eq_zero_iff.1 hn⟩
  · rintro (h | ⟨digits, hs, h, hzero⟩)
    · refine ⟨(Nat.ofDigitChars 10 s.toList 0 : Nat), String.toList_inj.1 ?_⟩
      rw [toList_toString_natCast, toDigits_ofDigitChars h]
    · refine ⟨-(Nat.ofDigitChars 10 digits 0 : Nat), String.toList_inj.1 ?_⟩
      have hvalue : Nat.ofDigitChars 10 digits 0 ≠ 0 := by
        intro hnil
        rw [← toDigits_ofDigitChars h, hnil] at hzero
        exact hzero rfl
      rw [toList_toString_neg hvalue, toDigits_ofDigitChars h, hs]

theorem isDecimal_of_mem_toString {i : Int} {c : Char} (h : c ∈ (toString i).toList) :
    isDecimal c = true := by
  have hnumeral {cs : List Char} (hcs : IsNumeral cs) (hc : c ∈ cs) : isDecimal c = true := by
    rw [isDecimal, hcs.digits c hc, Bool.true_or]
  rcases exists_toString_eq_iff.1 ⟨i, rfl⟩ with hcs | ⟨digits, hcs, hdigits, -⟩
  · exact hnumeral hcs h
  · rw [hcs] at h
    rcases List.mem_cons.1 h with rfl | hc
    · rfl
    · exact hnumeral hdigits hc

theorem toString_ne_nil (i : Int) : (toString i).toList ≠ [] := by
  rcases exists_toString_eq_iff.1 ⟨i, rfl⟩ with hcs | ⟨digits, hcs, -⟩
  · exact hcs.nonempty
  · rw [hcs]
    exact List.cons_ne_nil _ _

theorem isBlank_of_isDecimal {c : Char} (h : isDecimal c = true) : isBlank c = false := by
  rw [isDecimal, Bool.or_eq_true, beq_iff_eq] at h
  rcases h with hdigit | rfl
  · obtain ⟨d, hd, rfl⟩ := exists_digitChar hdigit
    revert d
    decide
  · decide

/-- There is nothing to trim in the decimal form of an integer. -/
theorem trim_toString (i : Int) : trim (toString i) = toString i := by
  rw [trim, trimChars_of_not_blank, String.ofList_toList]
  · exact fun c hc => isBlank_of_isDecimal (isDecimal_of_mem_toString (List.mem_of_mem_head? hc))
  · exact fun c hc => isBlank_of_isDecimal (isDecimal_of_mem_toString (List.mem_of_mem_getLast? hc))

end BuildGraph.Text
