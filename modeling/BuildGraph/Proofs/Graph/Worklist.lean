import BuildGraph.Proofs.Graph.Reach
import BuildGraph.Proofs.Variant.Consistency

/-!
# Walks with a worklist

The loop behind a walk, round by round. It keeps a stack of names and pushes what a new name depends on
in reverse, so that the first of these names is the next one on top. A name is marked when it is popped,
and not when it is pushed, so it may be on the stack several times. The loop ends, after as many rounds
as names are pushed, and has then listed the pre-order of the recursive walk.
-/

namespace BuildGraph

/-- A worklist between two rounds: the names on its stack, the top last, and the names listed so far. -/
structure Worklist where
  stack : List String
  listed : List String

namespace Worklist

variable {elements : Elements} {name : String} {rest listed : List String}

/-- One round: the name on top is popped, and if it is new it is listed and the names it depends on are
pushed, the first of them last. With an empty stack there is no further round. -/
def round? (elements : Elements) (w : Worklist) : Option Worklist :=
  w.stack.getLast?.map fun name =>
    if w.listed.contains name then ⟨w.stack.dropLast, w.listed⟩
    else ⟨w.stack.dropLast ++ (elements.next name).reverse, w.listed ++ [name]⟩

/-- So many rounds. -/
def rounds? (elements : Elements) : Nat → Worklist → Option Worklist
  | 0, w => some w
  | k + 1, w => (w.round? elements).bind (rounds? elements k)

/-- How many dependencies the elements of names have together. -/
def degree (elements : Elements) (names : List String) : Nat :=
  (names.flatMap elements.next).length

theorem round?_of_mem (h : name ∈ listed) :
    round? elements ⟨(name :: rest).reverse, listed⟩ = some ⟨rest.reverse, listed⟩ := by
  simp [round?, h]

theorem round?_of_not_mem (h : name ∉ listed) :
    round? elements ⟨(name :: rest).reverse, listed⟩ =
      some ⟨(elements.next name ++ rest).reverse, listed ++ [name]⟩ := by
  simp [round?, h]

theorem degree_append_singleton (names : List String) (name : String) :
    degree elements (names ++ [name]) = degree elements names + (elements.next name).length := by
  simp [degree]

/-- The loop empties its stack: it takes a round for each name on it, and one for each dependency of the
names that it lists on the way. -/
theorem exists_rounds (elements : Elements) (pending seen : List String) :
    ∃ k, k + degree elements seen = pending.length + degree elements (elements.walk pending seen) ∧
      rounds? elements k ⟨pending.reverse, seen⟩ = some ⟨[], elements.walk pending seen⟩ := by
  induction pending, seen using Elements.walk.induct elements with
  | case1 seen =>
    rw [Elements.walk]
    exact ⟨0, rfl, rfl⟩
  | case2 seen name rest hseen ih =>
    obtain ⟨k, hk, hrounds⟩ := ih
    rw [Elements.walk, if_pos hseen]
    refine ⟨k + 1, ?_, ?_⟩
    · rw [List.length_cons]
      omega
    · rw [rounds?, round?_of_mem (by simpa using hseen), Option.bind_some, hrounds]
  | case3 seen name rest hseen ih =>
    -- what the new name pushes is paid for by its own dependencies
    obtain ⟨k, hk, hrounds⟩ := ih
    rw [Elements.walk, if_neg hseen]
    refine ⟨k + 1, ?_, ?_⟩
    · rw [degree_append_singleton, List.length_append] at hk
      rw [List.length_cons]
      omega
    · rw [rounds?, round?_of_not_mem (by simpa using hseen), Option.bind_some, hrounds]

end Worklist

namespace Elements

variable {elements : Elements} {start : String}

/-- What a walk from a start comes to. -/
structure Walked (elements : Elements) (start : String) (listed : List String) : Prop where
  /-- The loop with the start on its stack ends, after one round for the start and one for each
  dependency of what is listed. -/
  ends : Worklist.rounds? elements (1 + Worklist.degree elements listed) ⟨[start], []⟩ =
    some ⟨[], listed⟩
  /-- The recursive walk, through the dependencies in their order, makes this list and no other. -/
  preorder : ∀ other,
    Preorder (fun n next => next = elements.next n) [start] [] other ↔ other = listed
  distinct : listed.Nodup
  first : listed.head? = some start
  mem_iff : ∀ n, n ∈ listed ↔ elements.Reaches start n

/-- A walk with a worklist is the recursive depth-first walk: it ends on every table, also where there
are cycles in it, and lists the start and then all else that is reached, each name once, in the
pre-order of the recursion. -/
theorem reachable_walked (elements : Elements) (start : String) :
    elements.Walked start (elements.reachable start) where
  ends := by
    obtain ⟨k, hk, hrounds⟩ := Worklist.exists_rounds elements [start] []
    obtain rfl : k = 1 + Worklist.degree elements (elements.reachable start) := by
      rwa [List.length_singleton] at hk
    exact hrounds
  preorder _ := preorder_iff_eq_walk
  distinct := nodup_reachable start
  first := head?_reachable start
  mem_iff _ := mem_reachable_iff

/-- A table with a cycle through `t`, in which three elements ask for `b`. -/
def sharedTable : Elements := .ofList [
  { Element.bare "t" [] [] with deps := [.between "t" "a" none, .between "t" "b" none] },
  { Element.bare "a" [] [] with deps := [.between "a" "b" none, .between "a" "c" none] },
  { Element.bare "b" [] [] with deps := [.between "b" "t" none] },
  { Element.bare "c" [] [] with deps := [.between "c" "b" none] }]

example : sharedTable.reachable "t" = ["t", "a", "b", "c"] := by decide +kernel

end Elements

end BuildGraph
