import BuildGraph.Text.Quoted
import Mathlib.Tactic.SplitIfs

/-!
# Quoted text read back

Every string comes back from its quoted form, whatever stands behind the closing quote. So a text begins
with one quoted string at most.
-/

namespace BuildGraph.Text

theorem hexValue?_hexDigit {n : Nat} (h : n < 16) : hexValue? (hexDigit n) = some n :=
  (by decide : ∀ n < 16, hexValue? (hexDigit n) = some n) n h

/-- The four digits of a control character give the character back. -/
theorem hexNumber?_control {c : Char} (h : c.toNat < 0x20) :
    hexNumber? ['0', '0', hexDigit (c.toNat / 16), hexDigit (c.toNat % 16)] = some c.toNat := by
  have hhigh := hexValue?_hexDigit (n := c.toNat / 16) (by omega)
  have hlow := hexValue?_hexDigit (n := c.toNat % 16) (by omega)
  have hzero : hexValue? '0' = some 0 := rfl
  have hvalue : 16 * (16 * (16 * (16 * 0 + 0) + 0) + c.toNat / 16) + c.toNat % 16 = c.toNat := by
    omega
  simp only [hexNumber?, List.foldlM_cons, List.foldlM_nil, hzero, hhigh, hlow, Option.map_some]
  exact congrArg some hvalue

theorem unquoteRest_plain {c : Char} (hquote : c ≠ '"') (hslash : c ≠ '\\')
    (hcontrol : ¬c.toNat < 0x20) (rest : List Char) :
    unquoteRest (c :: rest) = (unquoteRest rest).map fun (cs, after) => (c :: cs, after) := by
  rw [unquoteRest.eq_def]
  split
  case h_1 h => cases h
  case h_2 h => exact absurd (List.cons.inj h).1 hquote
  case h_3 h => exact absurd (List.cons.inj h).1 hslash
  case h_4 h => exact absurd (List.cons.inj h).1 hslash
  case h_5 h =>
    obtain ⟨rfl, rfl⟩ := List.cons.inj h
    rw [if_neg hcontrol]

theorem unquoteRest_control {c : Char} (h : c.toNat < 0x20) (rest : List Char) :
    unquoteRest
        ('\\' :: 'u' :: '0' :: '0' :: hexDigit (c.toNat / 16) :: hexDigit (c.toNat % 16) :: rest) =
      (unquoteRest rest).map fun (cs, after) => (c :: cs, after) := by
  rw [unquoteRest, hexNumber?_control h]
  simp only [Option.bind_eq_bind, Option.bind_some, Char.ofNat_toNat]
  cases unquoteRest rest <;> rfl

/-- The written form of a character is read as the character. -/
theorem unquoteRest_escape (c : Char) (rest : List Char) :
    unquoteRest (escape c ++ rest) = (unquoteRest rest).map fun (cs, after) => (c :: cs, after) := by
  rw [escape]
  split_ifs with hquote hslash hb hf hn hr ht hcontrol
  -- The seven characters that have a short escape.
  iterate 7
    · subst c
      rw [List.cons_append, List.cons_append, List.nil_append, unquoteRest]
      cases unquoteRest rest <;> rfl
  · exact unquoteRest_control hcontrol rest
  · exact unquoteRest_plain hquote hslash hcontrol rest

/-- The characters between quotes are read as they were written, up to the closing quote. -/
theorem unquoteRest_flatMap_escape (cs rest : List Char) :
    unquoteRest (cs.flatMap escape ++ '"' :: rest) = some (cs, rest) := by
  induction cs with
  | nil => rfl
  | cons c cs ih => rw [List.flatMap_cons, List.append_assoc, unquoteRest_escape, ih, Option.map_some]

/-- What was quoted is read back, and what follows it is left. -/
theorem unquote?_quote (s : String) (rest : List Char) :
    unquote? (quote s ++ rest) = some (s, rest) := by
  rw [quote, List.cons_append, List.append_assoc, unquote?]
  have hread := unquoteRest_flatMap_escape s.toList rest
  rw [List.cons_append, List.nil_append, hread]
  exact congrArg (fun t => some (t, rest)) String.ofList_toList

/-- Two texts that begin with quoted strings are the same if the strings are and what follows them. -/
theorem quote_append_inj {s t : String} {r r' : List Char} :
    quote s ++ r = quote t ++ r' ↔ s = t ∧ r = r' := by
  constructor
  · intro h
    have hread := congrArg unquote? h
    rw [unquote?_quote, unquote?_quote] at hread
    exact Prod.mk.inj (Option.some.inj hread)
  · rintro ⟨rfl, rfl⟩
    rfl

end BuildGraph.Text
