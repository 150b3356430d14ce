import BuildGraph.Element.Basic
import BuildGraph.Graph.Unseen

/-!
# Walks over resolved dependencies

The resolved dependencies of a table of elements are the edges of a graph on names. `Elements.reachable`
lists what a depth-first walk meets, in the order it meets it.
-/

namespace BuildGraph.Elements

/-- The resolved dependencies of the element of a name; a name without an element has none. -/
def depsOf (elements : Elements) (name : String) : List Dependency :=
  match elements.find? name with
  | some element => element.deps
  | none => []

/-- The names that an element depends on, in the order of its dependencies. -/
def next (elements : Elements) (name : String) : List String :=
  (elements.depsOf name).map Dependency.name

theorem next_eq_nil {elements : Elements} {name : String} (h : name ∉ elements.names) :
    elements.next name = [] := by
  have : elements.find? name = none := by
    simpa [← Roster.find?_isSome_iff] using h
  simp [next, depsOf, this]

/-- More than an element of the table has dependencies. -/
def breadth (elements : Elements) : Nat :=
  (elements.toList.flatMap Element.deps).length + 2

/-- What is left of a walk that has met the names `seen` and has so many steps pending: an element that
is new counts for more than the steps to all of its dependencies. -/
def effort (elements : Elements) (seen : List String) (pending : Nat) : Nat :=
  (unseen elements.names seen).length * elements.breadth + pending

theorem lt_breadth {elements : Elements} {e : Element} (he : e ∈ elements.toList) :
    e.deps.length + 1 < elements.breadth := by
  obtain ⟨before, after, hsplit⟩ := List.append_of_mem he
  rw [breadth, hsplit, List.flatMap_append, List.flatMap_cons, List.length_append, List.length_append]
  omega

theorem effort_lt {elements : Elements} {seen : List String} {less more : Nat} (h : less < more) :
    elements.effort seen less < elements.effort seen more :=
  Nat.add_lt_add_left h _

/-- Meeting a new element leaves less, though its dependencies are to be followed. -/
theorem effort_append_lt {elements : Elements} {seen : List String} {name : String} {e : Element}
    (he : elements.find? name = some e) (new : name ∉ seen) (pending : Nat) :
    elements.effort (seen ++ [name]) (e.deps.length + 1 + pending) <
      elements.effort seen pending := by
  have hbreadth := lt_breadth (Named.mem_of_find? he)
  have hfewer : (unseen elements.names (seen ++ [name])).length + 1 ≤
      (unseen elements.names seen).length :=
    length_unseen_append_lt (Roster.find?_isSome_iff.1 (by rw [he]; rfl)) new
  have hleft := Nat.mul_le_mul_right elements.breadth hfewer
  rw [Nat.add_mul, Nat.one_mul] at hleft
  rw [effort, effort]
  omega

/-- Walks on from the pending names, after those already seen: each new name is followed at once by
what it depends on. -/
def walk (elements : Elements) (pending seen : List String) : List String :=
  match pending with
  | [] => seen
  | name :: rest =>
    if seen.contains name then walk elements rest seen
    else walk elements (elements.next name ++ rest) (seen ++ [name])
termination_by elements.effort seen pending.length
decreasing_by
  · exact effort_lt (Nat.lt_succ_self _)
  · have new : name ∉ seen := by simp_all
    cases he : elements.find? name with
    | some e =>
      have hless := effort_append_lt he new rest.length
      simp only [effort, next, depsOf, he, List.length_append, List.length_map,
        List.length_cons] at hless ⊢
      omega
    | none =>
      have unknown : name ∉ elements.names := fun hmem => by
        simpa [he] using Roster.find?_isSome_iff.2 hmem
      rw [next_eq_nil unknown, effort, effort, unseen_append_of_not_mem _ unknown]
      exact Nat.add_lt_add_left (Nat.lt_succ_self _) _

/-- The names that are reached from `start`, which comes first, in depth-first order. -/
def reachable (elements : Elements) (start : String) : List String :=
  elements.walk [start] []

end BuildGraph.Elements
