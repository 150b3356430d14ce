import BuildGraph.Error
import BuildGraph.Graph.Walk

/-!
# Cycles of resolved dependencies

`Elements.checkCircular` fails if an element that is reached from the starts is reached from itself.
The chain in the error runs from the element back to it, dependency by dependency.
-/

namespace BuildGraph

/-- A name to visit, and where it is depended on. A start is depended on nowhere. -/
structure Arrival where
  name : String
  place : Option Provenance
  deriving DecidableEq, Repr

namespace Elements

/-- The arrivals at the dependencies of an element. -/
def arrivals (e : Element) : List Arrival :=
  e.deps.map fun dep => ⟨dep.name, some dep.place⟩

/-- The part of a path that leads from a name on it back to the name. -/
def chain (path : List String) (name : String) : List String :=
  path.dropWhile (· != name) ++ [name]

/-- Visits what is arrived at from the end of a path, one after the other. Of the names in `sound` it
is known that nothing reached from them is on a cycle; the answer is all such names. -/
def visit (elements : Elements) (path : List String) (arrivals : List Arrival)
    (sound : List String) : Except LoadError (List String) :=
  match arrivals with
  | [] => .ok sound
  | arrival :: rest =>
    if sound.contains arrival.name then visit elements path rest sound
    else if path.contains arrival.name then
      .error (.circularDependency arrival.name (chain path arrival.name) arrival.place)
    else match _found : elements.find? arrival.name with
      | none => visit elements path rest sound
      | some element => do
        let sound ← visit elements (path ++ [arrival.name]) (Elements.arrivals element) sound
        visit elements path rest (sound ++ [arrival.name])
termination_by elements.effort path arrivals.length
decreasing_by
  · exact effort_lt (Nat.lt_succ_self _)
  · exact effort_lt (Nat.lt_succ_self _)
  · have new : arrival.name ∉ path := by simp_all
    have less := effort_append_lt _found new (rest.length + 1)
    simp only [effort, Elements.arrivals, List.length_map, List.length_cons] at less ⊢
    omega
  · exact effort_lt (Nat.lt_succ_self _)

/-- Fails if an element that is reached from the starts is on a cycle. -/
def checkCircular (elements : Elements) (starts : List String) : Except LoadError Unit := do
  let _ ← elements.visit [] (starts.map (⟨·, none⟩)) []

end Elements

end BuildGraph
