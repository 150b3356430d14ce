/-!
# Names not met yet

A walk over finitely many names that remembers the names it has met ends, because every new name it
meets leaves fewer that it has not met. `unseen` is what is left, and the lemmas say how it shrinks.
-/

namespace BuildGraph

/-- The names that are not among those `seen`. -/
def unseen (names seen : List String) : List String :=
  names.filter fun n => !seen.contains n

theorem mem_unseen {names seen : List String} {n : String} :
    n ∈ unseen names seen ↔ n ∈ names ∧ n ∉ seen := by
  simp [unseen]

/-- Names and what is not among them of others are both together. -/
theorem mem_append_unseen {names others : List String} {n : String} :
    n ∈ names ++ unseen others names ↔ n ∈ names ∨ n ∈ others := by
  rw [List.mem_append, mem_unseen]
  by_cases h : n ∈ names <;> simp [h]

theorem unseen_cons_of_mem {names seen : List String} {n : String} (h : n ∈ seen) :
    unseen (n :: names) seen = unseen names seen :=
  List.filter_cons_of_neg (by simpa using h)

theorem unseen_cons_of_not_mem {names seen : List String} {n : String} (h : n ∉ seen) :
    unseen (n :: names) seen = n :: unseen names seen :=
  List.filter_cons_of_pos (by simpa using h)

/-- Meeting a name that is not among the names leaves as many. -/
theorem unseen_append_of_not_mem {names : List String} {n : String} (seen : List String)
    (h : n ∉ names) : unseen names (seen ++ [n]) = unseen names seen :=
  List.filter_congr fun m hm => by
    have hne : m ≠ n := fun heq => h (heq ▸ hm)
    simp [hne]

/-- Meeting one more name takes it out of what is left. -/
theorem unseen_append (names seen : List String) (n : String) :
    unseen names (seen ++ [n]) = (unseen names seen).filter (· ≠ n) := by
  simp only [unseen, List.filter_filter]
  congr 1
  funext m
  by_cases h : m = n <;> simp [h]

/-- Meeting a new one of the names leaves fewer. -/
theorem length_unseen_append_lt {names seen : List String} {n : String} (hn : n ∈ names)
    (hs : n ∉ seen) : (unseen names (seen ++ [n])).length < (unseen names seen).length := by
  rw [unseen_append]
  exact List.length_filter_lt_length_iff_exists.2 ⟨n, mem_unseen.2 ⟨hn, hs⟩, by simp⟩

end BuildGraph
