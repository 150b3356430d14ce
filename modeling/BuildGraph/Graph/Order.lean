import BuildGraph.Graph.Walk

/-!
# The order of dependencies

The resolved dependencies of an element are put in an order in which it can be put together: a
dependency that reaches a sibling comes after it. Apart from that, what is only needed to run comes
last, and names decide the rest. What is reached from a name is listed once for all elements.
-/

namespace BuildGraph

/-- What is reached from names, as far as it is known. -/
abbrev Closures := List (String × List String)

namespace Dependency

/-- Whether a dependency goes before another one as far as nothing else orders them. -/
def goesBefore (a b : Dependency) : Bool :=
  if a.isRuntimeOnly == b.isRuntimeOnly then decide (a.name ≤ b.name) else b.isRuntimeOnly

/-- Whether a dependency reaches none of the others, where `reaches` lists what each name reaches. -/
def isReady (reaches : Closures) (deps : List Dependency) (dep : Dependency) : Bool :=
  deps.all fun other =>
    other.name == dep.name || !((reaches.lookup dep.name).getD []).contains other.name

/-- Takes out the first dependency that reaches none of the others, again and again. On a cycle there
may be none, and the first one is taken. -/
def arrange (reaches : Closures) (deps : List Dependency) : List Dependency :=
  match deps with
  | [] => []
  | first :: rest =>
    let ready := isReady reaches (first :: rest)
    match _found : (first :: rest).find? ready with
    | some dep => dep :: arrange reaches ((first :: rest).eraseP ready)
    | none => first :: arrange reaches rest
termination_by deps.length
decreasing_by
  · have taken := List.find?_some _found
    have listed := List.mem_of_find?_eq_some _found
    rw [List.length_eraseP_of_mem listed taken]
    simp
  · simp

/-- Dependencies in their order. -/
def order (reaches : Closures) (deps : List Dependency) : List Dependency :=
  arrange reaches (deps.mergeSort goesBefore)

end Dependency

namespace Elements

mutual
/-- The names that are reached from a name by one or more dependencies, and what is known with them.
While those of the names on `path` are being listed, these count as names that reach nothing. -/
def closure (elements : Elements) (path : List String) (name : String) (known : Closures) :
    List String × Closures :=
  match known.lookup name with
  | some all => (all, known)
  | none =>
    if path.contains name then ([], known)
    else match _found : elements.find? name with
      | none => ([], known ++ [(name, [])])
      | some element =>
        let (all, known) := closureAll elements (path ++ [name]) element.deps known
        (all, known ++ [(name, all)])
termination_by elements.effort path 0
decreasing_by
  have new : name ∉ path := by simp_all
  exact effort_append_lt _found new 0

/-- The names of the dependencies and what is reached from them. -/
def closureAll (elements : Elements) (path : List String) (deps : List Dependency)
    (known : Closures) : List String × Closures :=
  match deps with
  | [] => ([], known)
  | dep :: rest =>
    let (own, known) := closure elements path dep.name known
    let (others, known) := closureAll elements path rest known
    (dep.name :: own ++ unseen others (dep.name :: own), known)
termination_by elements.effort path (deps.length + 1)
decreasing_by
  · exact effort_lt (Nat.succ_pos _)
  · exact effort_lt (Nat.lt_succ_self _)
end

/-- What is reached from the names, and from all that is met on the way. -/
def closures (elements : Elements) (names : List String) : Closures :=
  names.foldl (fun known name => (elements.closure [] name known).2) []

/-- Puts the resolved dependencies of the named elements in order. -/
def sortDependencies (elements : Elements) (names : List String) : Elements :=
  let reaches := elements.closures names
  elements.map
    (fun e => if names.contains e.name then { e with deps := Dependency.order reaches e.deps } else e)
    (by intro e; split <;> rfl)

end Elements

end BuildGraph
