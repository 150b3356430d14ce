import BuildGraph.Graph.Walk
import BuildGraph.Proofs.Graph.Preorder

/-!
# What a walk lists

A walk puts what a name leads to in front of all that is pending, and so makes the pre-order of the
recursive walk.
-/

namespace BuildGraph.Elements

variable {elements : Elements}

/-- A walk makes the pre-order of the recursive walk. -/
theorem walk_preorder (elements : Elements) (pending seen : List String) :
    Preorder (fun n next => next = elements.next n) pending seen (elements.walk pending seen) := by
  induction pending, seen using walk.induct elements with
  | case1 seen =>
    rw [walk]
    exact .done
  | case2 seen name rest hseen ih =>
    rw [walk, if_pos hseen]
    exact .skip (by simpa using hseen) ih
  | case3 seen name rest hseen ih =>
    rw [walk, if_neg hseen]
    obtain ⟨mid, hnext, hrest⟩ := ih.of_append
    exact .visit (by simpa using hseen) rfl hnext hrest

theorem preorder_iff_eq_walk {pending seen listed : List String} :
    Preorder (fun n next => next = elements.next n) pending seen listed ↔
      listed = elements.walk pending seen := by
  have hwalk := walk_preorder elements pending seen
  constructor
  · exact fun h => h.unique (fun _ _ _ hnext hnext' => hnext.trans hnext'.symm) hwalk
  · rintro rfl
    exact hwalk

theorem head?_reachable (start : String) : (elements.reachable start).head? = some start := by
  have hnew : ¬([] : List String).contains start = true := by simp
  obtain ⟨later, hlater⟩ := (walk_preorder elements (elements.next start ++ []) [start]).exists_append
  rw [reachable, walk, if_neg hnew, List.nil_append, hlater]
  rfl

theorem nodup_reachable (start : String) : (elements.reachable start).Nodup :=
  (walk_preorder elements [start] []).nodup List.nodup_nil

end BuildGraph.Elements
