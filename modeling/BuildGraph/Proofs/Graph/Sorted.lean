import BuildGraph.Proofs.Graph.Arrangement
import BuildGraph.Proofs.Graph.Cycle
import BuildGraph.Proofs.Variant.Consistency
import Mathlib.Logic.Relation

/-!
# Sorted tables

Sorting what is reached from a target gives every element its dependencies in the least valid order.
As that order is determined by the dependencies, it does not matter how they were listed.
-/

namespace BuildGraph

namespace Dependency

/-- Where no name occurs twice, keys tell the orders of the same dependencies apart. -/
theorem eq_of_map_key_eq {deps other : List Dependency} (hnames : (Named.names deps).Nodup)
    (hperm : other.Perm deps) (hkeys : deps.map key = other.map key) : deps = other := by
  have hsame : Named.names other = Named.names deps := by
    have hmap := congrArg (List.map fun k => (ofLex k).2) hkeys.symm
    rwa [List.map_map, List.map_map] at hmap
  exact (Named.eq_of_names_eq hsame hnames hperm.subset).symm

end Dependency

namespace Elements

variable {elements elements' : Elements} {target : String}

/-- Whether a table has the same elements as another one, their resolved dependencies in some order. -/
structure Relists (elements elements' : Elements) : Prop where
  unknown : ∀ n, elements.find? n = none → elements'.find? n = none
  known : ∀ n e, elements.find? n = some e →
    ∃ deps, deps.Perm e.deps ∧ elements'.find? n = some { e with deps }

theorem Relists.depsOf_perm (h : elements.Relists elements') (n : String) :
    (elements'.depsOf n).Perm (elements.depsOf n) := by
  cases he : elements.find? n with
  | none => rw [depsOf, depsOf, he, h.unknown n he]
  | some e =>
    obtain ⟨deps, hperm, he'⟩ := h.known n e he
    rw [depsOf_eq he, depsOf_eq he']
    exact hperm

theorem Relists.leadsTo_eq (h : elements.Relists elements') :
    elements'.LeadsTo = elements.LeadsTo := by
  funext m n
  exact propext ((h.depsOf_perm m).map Dependency.name).mem_iff

theorem Relists.follows_eq (h : elements.Relists elements') :
    elements'.Follows = elements.Follows := by
  rw [Follows, Follows, h.leadsTo_eq]

theorem Relists.reaches_eq (h : elements.Relists elements') :
    elements'.Reaches = elements.Reaches := by
  rw [Reaches, Reaches, h.leadsTo_eq]

theorem Relists.respects_eq (h : elements.Relists elements') :
    elements'.Respects = elements.Respects := by
  funext deps
  rw [Respects, Respects, h.follows_eq]

theorem Relists.clear (h : elements.Relists elements') (acyclic : elements.Clear target) :
    elements'.Clear target := by
  rw [Clear, h.reaches_eq, h.follows_eq]
  exact acyclic

theorem names_sortDependencies (elements : Elements) (names : List String) :
    (elements.sortDependencies names).names = elements.names := by
  rw [Roster.names, Roster.names, sortDependencies, Roster.map, Named.names, Named.names,
    List.map_map]
  refine List.map_congr_left fun e _ => ?_
  rw [Function.comp_apply]
  split <;> rfl

theorem find?_sortDependencies_none {names : List String} {n : String}
    (hn : elements.find? n = none) : (elements.sortDependencies names).find? n = none := by
  have hnot : ¬(elements.find? n).isSome := by simp [hn]
  rw [Roster.find?_isSome_iff, ← names_sortDependencies elements names,
    ← Roster.find?_isSome_iff] at hnot
  simpa using hnot

/-- What is reached from a target without cycles has its closures known when it is sorted. -/
theorem charted_of_reaches (acyclic : elements.Clear target) {n : String} {e : Element}
    (he : elements.find? n = some e) (hn : elements.Reaches target n) :
    elements.Charted (elements.closures (elements.reachable target)) e.deps := by
  have hreach : ∀ dep ∈ e.deps, elements.Reaches target dep.name := by
    intro dep hdep
    exact hn.tail (leadsTo_of_find? he hdep)
  have hclear : ∀ m ∈ elements.reachable target, elements.Clear m :=
    fun m hm => acyclic.of_reaches (mem_reachable_iff.1 hm)
  refine ⟨fun dep hdep m => ?_, fun dep hdep => acyclic.of_reaches (hreach dep hdep)⟩
  obtain ⟨all, hall, hmem⟩ := lookup_closures hclear (mem_reachable_iff.2 (hreach dep hdep))
  rw [hall, Option.getD_some, hmem]

/-- What sorting makes of an element that is reached. -/
theorem find?_sorted (acyclic : elements.Clear target) {n : String} {e : Element}
    (he : elements.find? n = some e) (hn : elements.Reaches target n) :
    ∃ deps, (elements.sortDependencies (elements.reachable target)).find? n = some { e with deps } ∧
      deps.Perm e.deps ∧ elements.Respects deps ∧
      ∀ other : List Dependency, other.Perm e.deps → elements.Respects other →
        deps.map Dependency.key ≤ other.map Dependency.key := by
  have hfound := find?_sortDependencies (elements.reachable target) he
  rw [if_pos (by simpa using mem_reachable_iff.2 hn)] at hfound
  obtain ⟨hvalid, hleast⟩ := (charted_of_reaches acyclic he hn).order_least
  exact ⟨_, hfound, Dependency.order_perm _ _, hvalid, hleast⟩

/-- Sorting what is reached from a target gives each of its elements the least valid order of its
dependencies and changes nothing else. The outcome depends on the dependencies only, and not on the
order in which they were listed. -/
theorem sortDependencies_least (acyclic : elements.Clear target) :
    (elements.sortDependencies (elements.reachable target)).names = elements.names ∧
    (∀ n, ¬elements.Reaches target n →
      (elements.sortDependencies (elements.reachable target)).find? n = elements.find? n) ∧
    (∀ n e, elements.find? n = some e → elements.Reaches target n → ∃ deps,
      (elements.sortDependencies (elements.reachable target)).find? n = some { e with deps } ∧
      deps.Perm e.deps ∧ elements.Respects deps ∧
      ∀ other : List Dependency, other.Perm e.deps → elements.Respects other →
        deps.map Dependency.key ≤ other.map Dependency.key) ∧
    ∀ elements', elements.Relists elements' →
      (∀ n, elements.Reaches target n → (Named.names (elements.depsOf n)).Nodup) →
      ∀ n, elements.Reaches target n →
        (elements.sortDependencies (elements.reachable target)).find? n =
          (elements'.sortDependencies (elements'.reachable target)).find? n := by
  refine ⟨names_sortDependencies _ _, fun n hn => ?_, fun n e => find?_sorted acyclic, ?_⟩
  · cases he : elements.find? n with
    | none => exact find?_sortDependencies_none he
    | some e =>
      rw [find?_sortDependencies _ he, if_neg]
      simpa [mem_reachable_iff] using hn
  · intro elements' hrelists hdistinct n hn
    cases he : elements.find? n with
    | none =>
      rw [find?_sortDependencies_none he, find?_sortDependencies_none (hrelists.unknown n he)]
    | some e =>
      obtain ⟨listed, hlisted, he'⟩ := hrelists.known n e he
      obtain ⟨deps, hfound, hperm, hvalid, hleast⟩ := find?_sorted acyclic he hn
      obtain ⟨deps', hfound', hperm', hvalid', hleast'⟩ :=
        find?_sorted (hrelists.clear acyclic) he' (hrelists.reaches_eq ▸ hn)
      rw [hrelists.respects_eq] at hvalid' hleast'
      have hsame : deps'.Perm e.deps := hperm'.trans hlisted
      -- each of the two is a valid order of the other table as well, so neither comes first
      have hkeys : deps.map Dependency.key = deps'.map Dependency.key :=
        le_antisymm (hleast deps' hsame hvalid') (hleast' deps (hperm.trans hlisted.symm) hvalid)
      have hnames : (Named.names deps).Nodup := by
        have hnodup := hdistinct n hn
        rw [depsOf_eq he] at hnodup
        exact (hperm.map Dependency.name).nodup_iff.2 hnodup
      obtain rfl := Dependency.eq_of_map_key_eq hnames (hsame.trans hperm.symm) hkeys
      rw [hfound, hfound']

/-- The element `t` needs `m` only to run, but `a`, which it needs to be built, cannot do without. -/
def crossedTable : Elements := .ofList [
  { Element.bare "t" [] [] with deps := [
      .between "t" "a" none, { Dependency.between "t" "m" none with type := some .runtime },
      .between "t" "z" none] },
  { Element.bare "a" [] [] with deps := [.between "a" "m" none] },
  .bare "m" [] [], .bare "z" [] []]

/-- So `a` comes behind `m`, and both come behind `z`. -/
theorem crossedTable_sorted : crossedTable.Clear "t" ∧ ∃ e deps,
    crossedTable.find? "t" = some e ∧ Named.names e.deps = ["a", "m", "z"] ∧
    (crossedTable.sortDependencies (crossedTable.reachable "t")).find? "t" = some { e with deps } ∧
    Named.names deps = ["z", "m", "a"] ∧ deps.Perm e.deps ∧ crossedTable.Respects deps ∧
    ∀ other : List Dependency, other.Perm e.deps → crossedTable.Respects other →
      deps.map Dependency.key ≤ other.map Dependency.key := by
  have hpass : crossedTable.checkCircular ["t"] = .ok () := by decide +kernel
  have hclear : crossedTable.Clear "t" := clear_of_checkCircular hpass "t" List.mem_cons_self
  have hsort : [.between "t" "a" none, { Dependency.between "t" "m" none with type := some .runtime },
      .between "t" "z" none].mergeSort Dependency.goesBefore =
      [.between "t" "a" none, .between "t" "z" none,
        { Dependency.between "t" "m" none with type := some .runtime }] := by
    simp [List.mergeSort, List.MergeSort.Internal.splitInTwo, Dependency.goesBefore,
      Dependency.isRuntimeOnly, Dependency.between]
  have horder : ((crossedTable.sortDependencies (crossedTable.reachable "t")).find? "t").map
      (fun e => Named.names e.deps) = some ["z", "m", "a"] := by
    rw [find?_sortDependencies _ rfl, if_pos (by decide +kernel), Option.map_some, Dependency.order,
      hsort]
    decide +kernel
  obtain ⟨deps, hfound, hperm, hvalid, hleast⟩ :=
    (sortDependencies_least hclear).2.2.1 "t" _ rfl .refl
  rw [hfound] at horder
  exact ⟨hclear, _, deps, rfl, rfl, hfound, Option.some.inj horder, hperm, hvalid, hleast⟩

end Elements

end BuildGraph
