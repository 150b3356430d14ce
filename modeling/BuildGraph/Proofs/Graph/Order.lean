import BuildGraph.Graph.Order
import Mathlib.Data.List.Perm.Basic

/-!
# Ordering loses no dependency
-/

namespace BuildGraph

namespace Dependency

/-- Taking the first thing of a kind to the front. -/
theorem perm_cons_eraseP {α : Type} {p : α → Bool} {xs : List α} {x : α}
    (h : xs.find? p = some x) : (x :: xs.eraseP p).Perm xs := by
  obtain ⟨hx, before, after, rfl, hbefore⟩ := List.find?_eq_some_iff_append.1 h
  have hnone : ∀ y ∈ before, ¬p y = true := fun y hy => by simpa using hbefore y hy
  rw [List.eraseP_append_right _ hnone, List.eraseP_cons_of_pos hx]
  exact List.perm_middle.symm

/-- An arrangement has the same dependencies. -/
theorem arrange_perm (reaches : Closures) (deps : List Dependency) :
    (arrange reaches deps).Perm deps := by
  induction deps using arrange.induct reaches with
  | case1 => rw [arrange]
  | case2 first rest ready dep hfound ih =>
    rw [arrange]
    split
    · next d hd =>
      obtain rfl : dep = d := Option.some.inj (hfound.symm.trans hd)
      exact (ih.cons dep).trans (perm_cons_eraseP hd)
    · next hnone =>
      rw [hfound] at hnone
      cases hnone
  | case3 first rest ready hnone ih =>
    rw [arrange]
    split
    · next d hd =>
      rw [hnone] at hd
      cases hd
    · exact ih.cons first

theorem order_perm (reaches : Closures) (deps : List Dependency) :
    (order reaches deps).Perm deps :=
  (arrange_perm reaches _).trans (List.mergeSort_perm deps _)

/-- Dependencies that are listed in the order in which they are sorted are only arranged. -/
theorem order_of_sorted {reaches : Closures} {deps : List Dependency}
    (h : deps.Pairwise fun a b => a.goesBefore b = true) :
    order reaches deps = arrange reaches deps := by
  rw [order, List.mergeSort_of_pairwise h]

end Dependency

namespace Elements

/-- Arranges the resolved dependencies of the named elements as they are listed. -/
def arrangeDependencies (elements : Elements) (names : List String) : Elements :=
  let reaches := elements.closures names
  elements.map (fun e =>
      if names.contains e.name then { e with deps := Dependency.arrange reaches e.deps } else e)
    (by intro e; split <;> rfl)

/-- An element whose dependencies are put in order keeps everything else. -/
theorem find?_sortDependencies {elements : Elements} (names : List String) {n : String}
    {e : Element} (he : elements.find? n = some e) :
    (elements.sortDependencies names).find? n =
      some (if names.contains n then
        { e with deps := Dependency.order (elements.closures names) e.deps } else e) := by
  have hname : e.name = n := Named.name_of_find? he
  have hmem : (if names.contains n then
      { e with deps := Dependency.order (elements.closures names) e.deps } else e) ∈
      (elements.sortDependencies names).toList :=
    List.mem_map.2 ⟨e, Named.mem_of_find? he, by rw [hname]⟩
  have hfound := Roster.find?_name_of_mem hmem
  have hsame : Named.name (if names.contains n then
      { e with deps := Dependency.order (elements.closures names) e.deps } else e) = n := by
    split
    · exact hname
    · exact hname
  rwa [hsame] at hfound

/-- A table whose dependencies are listed in the order in which they are sorted is only arranged. -/
theorem sortDependencies_of_sorted {elements : Elements}
    (h : ∀ e ∈ elements.toList, e.deps.Pairwise fun a b => a.goesBefore b = true)
    (names : List String) : elements.sortDependencies names = elements.arrangeDependencies names := by
  rw [sortDependencies, arrangeDependencies, Roster.map, Roster.map, Roster.mk.injEq]
  refine List.map_congr_left fun e he => ?_
  rw [Dependency.order_of_sorted (h e he)]

/-- Putting dependencies in order loses none. -/
theorem find?_sortDependencies_perm {elements : Elements} (names : List String) {n : String}
    {e : Element} (he : elements.find? n = some e) :
    ∃ deps, (elements.sortDependencies names).find? n = some { e with deps } ∧ deps.Perm e.deps := by
  rw [find?_sortDependencies names he]
  split
  · exact ⟨_, rfl, Dependency.order_perm _ _⟩
  · exact ⟨e.deps, rfl, .refl _⟩

/-- Putting dependencies in order brings in no element and changes nothing else. -/
theorem find?_of_sortDependencies {elements : Elements} {names : List String} {n : String}
    {e : Element} (he : (elements.sortDependencies names).find? n = some e) :
    ∃ old deps, elements.find? n = some old ∧ deps.Perm old.deps ∧ e = { old with deps } := by
  obtain ⟨old, hold, hsame⟩ := List.mem_map.1 (Named.mem_of_find? he)
  have hname : old.name = n := by
    rw [← Named.name_of_find? he, ← hsame]
    split <;> rfl
  have hfound : elements.find? n = some old := hname ▸ Roster.find?_name_of_mem hold
  obtain ⟨deps, hsorted, hperm⟩ := find?_sortDependencies_perm names hfound
  exact ⟨old, deps, hfound, hperm, Option.some.inj (he.symm.trans hsorted)⟩

end Elements

end BuildGraph
