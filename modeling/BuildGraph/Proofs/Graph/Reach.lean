import BuildGraph.Proofs.Graph.Walk

/-!
# What is reached through dependencies

The resolved dependencies of a table as a relation on names, what is reached through it, and the names
that are reached from themselves. A walk lists exactly what is reached from its start.
-/

namespace BuildGraph

/-- No cycle is reached from a start if none is from what it leads to: a cycle through the start would
be reached from there. -/
theorem not_transGen_of_next {α : Type} {r : α → α → Prop} {start : α}
    (h : ∀ next, r start next → ∀ a, Relation.ReflTransGen r next a → ¬Relation.TransGen r a a) :
    ∀ a, Relation.ReflTransGen r start a → ¬Relation.TransGen r a a := by
  intro a ha hcycle
  rcases ha.cases_head with rfl | ⟨next, hnext, ha⟩
  · obtain ⟨next, hnext, hback⟩ := Relation.TransGen.head'_iff.1 hcycle
    exact h next hnext start hback hcycle
  · exact h next hnext a ha hcycle

namespace Elements

variable {elements : Elements}

/-- Whether a name has a resolved dependency on another one. -/
def LeadsTo (elements : Elements) (m n : String) : Prop := n ∈ elements.next m

/-- Whether a name is reached from another one by some dependencies, or by none. -/
def Reaches (elements : Elements) : String → String → Prop :=
  Relation.ReflTransGen elements.LeadsTo

/-- Whether a name is reached from another one by one or more dependencies. -/
def Follows (elements : Elements) : String → String → Prop :=
  Relation.TransGen elements.LeadsTo

/-- Whether nothing that is reached from a name, itself included, is reached from itself. -/
def Clear (elements : Elements) (n : String) : Prop :=
  ∀ m, elements.Reaches n m → ¬elements.Follows m m

theorem leadsTo_iff {m n : String} :
    elements.LeadsTo m n ↔ ∃ dep ∈ elements.depsOf m, dep.name = n :=
  List.mem_map

theorem depsOf_eq {n : String} {e : Element} (he : elements.find? n = some e) :
    elements.depsOf n = e.deps := by
  rw [depsOf, he]

theorem leadsTo_of_find? {n : String} {e : Element} {dep : Dependency}
    (he : elements.find? n = some e) (hdep : dep ∈ e.deps) : elements.LeadsTo n dep.name :=
  leadsTo_iff.2 ⟨dep, depsOf_eq he ▸ hdep, rfl⟩

theorem Clear.of_reaches {m n : String} (h : elements.Clear m) (hn : elements.Reaches m n) :
    elements.Clear n :=
  fun k hk => h k (hn.trans hk)

/-- A name without an element leads nowhere. -/
theorem clear_of_not_mem {n : String} (h : n ∉ elements.names) : elements.Clear n := by
  have hnext : ∀ m, ¬elements.LeadsTo n m := by
    intro m hm
    rw [LeadsTo, next_eq_nil h] at hm
    cases hm
  intro m hm hcycle
  rcases hm.cases_head with rfl | ⟨k, hk, -⟩
  · obtain ⟨k, hk, -⟩ := Relation.TransGen.head'_iff.1 hcycle
    exact hnext k hk
  · exact hnext k hk

/-- A name is on no cycle if nothing that it depends on reaches one. -/
theorem clear_of_next {n : String} (h : ∀ m ∈ elements.next n, elements.Clear m) :
    elements.Clear n :=
  not_transGen_of_next h

/-- What is listed from a start is what is reached from it. -/
theorem mem_reachable_iff {start n : String} :
    n ∈ elements.reachable start ↔ elements.Reaches start n := by
  have hedge : Preorder.Edge (fun n next => next = elements.next n) = elements.LeadsTo := by
    funext m n
    exact propext exists_eq_left
  have hmem := (walk_preorder elements [start] []).mem_iff (fun _ _ _ h h' => h.trans h'.symm) (m := n)
  rw [reachable, hmem, hedge]
  simp only [List.mem_singleton, exists_eq_left, Reaches]

end Elements

end BuildGraph
