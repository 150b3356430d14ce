import BuildGraph.Text.Blank
import Mathlib.Data.List.Basic
import Mathlib.Data.List.TakeWhile

/-!
# Trimmed texts

A text consists of blanks, of what is left of it when it is trimmed, and of blanks again, and what is
left neither begins nor ends with one. There is one such part of every text (`trims_iff`).
-/

namespace BuildGraph.Text

/-- Whether the second of two texts is the first one without the blanks around it. -/
structure Trims (s t : String) : Prop where
  around : ∃ before after, s.toList = before ++ t.toList ++ after ∧
    (∀ c ∈ before, isBlank c = true) ∧ ∀ c ∈ after, isBlank c = true
  first : ∀ c ∈ t.toList.head?, isBlank c = false
  last : ∀ c ∈ t.toList.getLast?, isBlank c = false

theorem dropWhile_isBlank_append {before rest : List Char} (h : ∀ c ∈ before, isBlank c = true) :
    (before ++ rest).dropWhile isBlank = rest.dropWhile isBlank := by
  rw [List.dropWhile_append, List.dropWhile_eq_nil_iff.2 h]
  rfl

theorem trimChars_append {before after cs : List Char} (hbefore : ∀ c ∈ before, isBlank c = true)
    (hafter : ∀ c ∈ after, isBlank c = true) : trimChars (before ++ cs ++ after) = trimChars cs := by
  rw [trimChars, trimChars, List.append_assoc, dropWhile_isBlank_append hbefore,
    List.dropWhile_append]
  split
  · next hempty =>
    rw [List.isEmpty_iff.1 hempty, List.dropWhile_eq_nil_iff.2 hafter]
  · rw [List.reverse_append, dropWhile_isBlank_append fun c hc => hafter c (List.mem_reverse.1 hc)]

theorem exists_around (cs : List Char) : ∃ before after, cs = before ++ trimChars cs ++ after ∧
    (∀ c ∈ before, isBlank c = true) ∧ ∀ c ∈ after, isBlank c = true := by
  refine ⟨cs.takeWhile isBlank, ((cs.dropWhile isBlank).reverse.takeWhile isBlank).reverse, ?_,
    fun c => List.mem_takeWhile_imp, fun c hc => List.mem_takeWhile_imp (List.mem_reverse.1 hc)⟩
  rw [List.append_assoc, trimChars, ← List.reverse_append, List.takeWhile_append_dropWhile,
    List.reverse_reverse, List.takeWhile_append_dropWhile]

theorem isBlank_of_mem_head?_dropWhile {cs : List Char} {c : Char}
    (h : c ∈ (cs.dropWhile isBlank).head?) : isBlank c = false := by
  have hnot := List.head?_dropWhile_not isBlank cs
  rwa [Option.mem_def.1 h] at hnot

theorem isBlank_of_mem_getLast?_trimChars {cs : List Char} {c : Char}
    (h : c ∈ (trimChars cs).getLast?) : isBlank c = false := by
  rw [trimChars, List.getLast?_reverse] at h
  exact isBlank_of_mem_head?_dropWhile h

/-- What is cut off at the end leaves the first character alone. -/
theorem isBlank_of_mem_head?_trimChars {cs : List Char} {c : Char}
    (h : c ∈ (trimChars cs).head?) : isBlank c = false := by
  obtain ⟨cut, hcut⟩ : ∃ cut, trimChars cs ++ cut = cs.dropWhile isBlank := by
    refine ⟨((cs.dropWhile isBlank).reverse.takeWhile isBlank).reverse, ?_⟩
    rw [trimChars, ← List.reverse_append, List.takeWhile_append_dropWhile, List.reverse_reverse]
  have hfirst : c ∈ (cs.dropWhile isBlank).head? := by
    rw [← hcut]
    exact List.mem_head?_append_of_mem_head? h
  exact isBlank_of_mem_head?_dropWhile hfirst

/-- Trimming a text leaves what stands between the blanks at its ends, and there is one such part. -/
theorem trims_iff {s t : String} : Trims s t ↔ t = trim s := by
  constructor
  · rintro ⟨⟨before, after, hs, hbefore, hafter⟩, hfirst, hlast⟩
    rw [trim, hs, trimChars_append hbefore hafter, trimChars_of_not_blank hfirst hlast,
      String.ofList_toList]
  · rintro rfl
    rw [trim]
    refine ⟨?_, ?_, ?_⟩ <;> rw [String.toList_ofList]
    · exact exists_around s.toList
    · exact fun c => isBlank_of_mem_head?_trimChars
    · exact fun c => isBlank_of_mem_getLast?_trimChars

end BuildGraph.Text
