import BuildGraph.Document.Access
import BuildGraph.Document.Build
import BuildGraph.Proofs.Text.Blank
import BuildGraph.Proofs.Text.Decimal

/-!
# Scalars read as texts

A scalar that is read as a text gives the text it was written with, but for the blanks around it. This
holds of strings, and of the plain texts that are integers as well, because these are the decimal forms
of the integers and nothing else: with a leading zero, a plus sign, a minus sign before zero or a value
beyond 64 bits a text stays a string.
-/

namespace BuildGraph

namespace Scalar

/-- Whether a text spells null or a boolean where it is plain. -/
def IsWord (text : String) : Prop :=
  text ∈ nullWords ∨ text ∈ trueWords ∨ text ∈ falseWords

instance (text : String) : Decidable (IsWord text) := inferInstanceAs (Decidable (_ ∨ _))

/-- Whether a scalar stands for the text it was written with, in its style. -/
structure KeepsText (style : Yaml.Style) (text : String) (s : Scalar) : Prop where
  /-- The decimal forms of 64-bit integers are read as these where they are plain. -/
  int_iff : ∀ i, s = .int i ↔ style = .plain ∧ (-2 ^ 63 ≤ i ∧ i < 2 ^ 63) ∧ toString i = text
  /-- All other texts stay strings. -/
  string : (∀ i, s ≠ .int i) → s = .string text
  /-- So do those with a leading zero, with a plus sign, or with a minus sign before zero. -/
  string_of_not_canonical : ¬Text.IsCanonical text.toList → s = .string text
  /-- There is one text without the blanks around it. -/
  trims_iff : ∀ t, Text.Trims text t ↔ t = Text.trim text
  asString : ∀ place, (Node.scalar s place).asString? = some (Text.trim text)
  getString : ∀ (document : Node) key place, document.get? key = some (.scalar s place) →
    document.getString key = .ok (Text.trim text) ∧
    document.getString? key = .ok (some (Text.trim text)) ∧
    ∀ fallback, document.getStringD key fallback = .ok (Text.trim text)
  getContent : ∀ (document : Node) key place, document.get? key = some (.scalar s place) →
    ∀ fallback, document.getContent key .string fallback = .ok (.scalar (.string (Text.trim text)))

variable {style : Yaml.Style} {text : String}

theorem ofText_cases (h : style = .plain → ¬IsWord text) :
    (∃ i, style = .plain ∧ Text.readInt? text = some i ∧ ofText style text = .int i) ∨
      (style = .plain → Text.readInt? text = none) ∧ ofText style text = .string text := by
  by_cases hstyle : style = .plain
  · subst hstyle
    simp only [IsWord, not_or, forall_const] at h
    obtain ⟨hnull, htrue, hfalse⟩ := h
    cases hread : Text.readInt? text with
    | some i => exact .inl ⟨i, rfl, rfl, by simp [ofText, hnull, htrue, hfalse, hread]⟩
    | none => exact .inr ⟨fun _ => rfl, by simp [ofText, hnull, htrue, hfalse, hread]⟩
  · exact .inr ⟨fun hplain => absurd hplain hstyle, by simp [ofText, hstyle]⟩

theorem ofText_eq_int_iff (h : style = .plain → ¬IsWord text) (i : Int) :
    ofText style text = .int i ↔
      style = .plain ∧ (-2 ^ 63 ≤ i ∧ i < 2 ^ 63) ∧ toString i = text := by
  rw [← Text.readInt?_eq_some_iff]
  rcases ofText_cases h with ⟨j, hstyle, hread, htext⟩ | ⟨hread, htext⟩
  · rw [htext, hread, int.injEq, Option.some.injEq, and_iff_right hstyle]
  · rw [htext]
    constructor
    · exact nofun
    · rintro ⟨hstyle, hi⟩
      rw [hread hstyle] at hi
      cases hi

theorem ofText_eq_string (h : style = .plain → ¬IsWord text) (hint : ∀ i, ofText style text ≠ .int i) :
    ofText style text = .string text := by
  rcases ofText_cases h with ⟨i, -, -, htext⟩ | ⟨-, htext⟩
  · exact absurd htext (hint i)
  · exact htext

/-- An integer is read as the text it is written with, in which there is nothing to trim. -/
theorem asString?_ofText (h : style = .plain → ¬IsWord text) :
    (ofText style text).asString? = some (Text.trim text) := by
  rcases ofText_cases h with ⟨i, -, hread, htext⟩ | ⟨-, htext⟩
  · obtain ⟨-, rfl⟩ := Text.readInt?_eq_some_iff.1 hread
    rw [htext, Text.trim_toString]
    rfl
  · rw [htext]
    rfl

end Scalar

namespace Node

variable {document : Node} {key t : String} {s : Scalar} {place : Provenance}

theorem lookup_string (h : document.get? key = some (.scalar s place)) (hs : s.asString? = some t) :
    document.lookup key .string = .ok (some (.scalar s place)) := by
  rw [lookup, h]
  cases s with
  | null => cases hs
  | bool => cases hs
  | int => rfl
  | string => rfl

theorem getString?_of_asString? (h : document.get? key = some (.scalar s place))
    (hs : s.asString? = some t) : document.getString? key = .ok (some t) := by
  rw [getString?, lookup_string h hs]
  exact congrArg Except.ok hs

theorem getString_of_asString? (h : document.get? key = some (.scalar s place))
    (hs : s.asString? = some t) : document.getString key = .ok t := by
  rw [getString, getString?_of_asString? h hs]
  rfl

theorem getStringD_of_asString? (h : document.get? key = some (.scalar s place))
    (hs : s.asString? = some t) (fallback : String) :
    document.getStringD key fallback = .ok t := by
  rw [getStringD, getString?_of_asString? h hs]
  rfl

theorem getContent_of_asString? (h : document.get? key = some (.scalar s place))
    (hs : s.asString? = some t) (fallback : Option Content) :
    document.getContent key .string fallback = .ok (.scalar (.string t)) := by
  have hread : readAs .string (.scalar s place) = .scalar (.string t) := by
    simp only [readAs, asString?, hs]
  rw [getContent, lookup_string h hs]
  exact congrArg Except.ok hread

end Node

namespace Scalar

/-- Whatever a scalar looks like, as long as it does not spell null or a boolean, reading it as a string
gives the text it was written with, without the blanks around it. -/
theorem ofText_keepsText {style : Yaml.Style} {text : String} (h : style = .plain → ¬IsWord text) :
    (ofText style text).KeepsText style text where
  int_iff := ofText_eq_int_iff h
  string := ofText_eq_string h
  string_of_not_canonical hcanonical := by
    refine ofText_eq_string h fun i hi => hcanonical ?_
    obtain ⟨-, -, hform⟩ := (ofText_eq_int_iff h i).1 hi
    exact Text.exists_toString_eq_iff.1 ⟨i, hform⟩
  trims_iff _ := Text.trims_iff
  asString _ := asString?_ofText h
  getString _ _ _ hmember :=
    ⟨Node.getString_of_asString? hmember (asString?_ofText h),
      Node.getString?_of_asString? hmember (asString?_ofText h),
      Node.getStringD_of_asString? hmember (asString?_ofText h)⟩
  getContent _ _ _ hmember := Node.getContent_of_asString? hmember (asString?_ofText h)

/-- Below the least integer of 64 bits there is none. -/
example : ofText .plain "-9223372036854775809" = .string "-9223372036854775809" := by decide +kernel

/-- The least integer of 64 bits is read as the text it is written with. -/
theorem leastWord_keepsText : ¬IsWord "-9223372036854775808" ∧
    (ofText .plain "-9223372036854775808").KeepsText .plain "-9223372036854775808" ∧
    ofText .plain "-9223372036854775808" = .int (-9223372036854775808) := by
  have hword : ¬IsWord "-9223372036854775808" := by decide
  have hkept : (ofText .plain "-9223372036854775808").KeepsText .plain "-9223372036854775808" :=
    ofText_keepsText fun _ => hword
  exact ⟨hword, hkept, (hkept.int_iff _).2 ⟨rfl, by decide, by decide +kernel⟩⟩

end Scalar

end BuildGraph
