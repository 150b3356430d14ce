import BuildGraph.Proofs.Graph.Closure
import BuildGraph.Proofs.Graph.Order
import Mathlib.Data.List.Lex
import Mathlib.Data.Prod.Lex
import Mathlib.Data.String.Basic
import Mathlib.Order.BoundedOrder.Basic

/-!
# Dependencies are put in the least order

An order of dependencies is valid if each comes after those of the others that it reaches. Taking out
the first dependency that reaches none of the others, from a list that is sorted by `Dependency.key`,
gives the least valid order: the head of any valid order reaches none of the others, so that what is
taken out first is no greater.
-/

namespace BuildGraph

namespace Dependency

/-- What dependencies are sorted by where nothing else orders them: what is only needed to run comes
last, and names decide the rest. -/
def key (dep : Dependency) : Bool ×ₗ String :=
  toLex (dep.isRuntimeOnly, dep.name)

theorem name_eq_of_key_eq {a b : Dependency} (h : a.key = b.key) : a.name = b.name :=
  congrArg (fun k => (ofLex k).2) h

theorem goesBefore_iff {a b : Dependency} : goesBefore a b = true ↔ a.key ≤ b.key := by
  rw [goesBefore, key, key, Prod.Lex.toLex_le_toLex]
  cases ha : a.isRuntimeOnly <;> cases hb : b.isRuntimeOnly <;> simp

theorem pairwise_sort (deps : List Dependency) :
    (deps.mergeSort goesBefore).Pairwise fun a b => a.key ≤ b.key := by
  have hsorted : (deps.mergeSort goesBefore).Pairwise fun a b => goesBefore a b = true := by
    refine List.pairwise_mergeSort ?_ ?_ deps
    · intro a b c hab hbc
      exact goesBefore_iff.2 ((goesBefore_iff.1 hab).trans (goesBefore_iff.1 hbc))
    · intro a b
      rw [Bool.or_eq_true, goesBefore_iff, goesBefore_iff]
      exact le_total _ _
  exact hsorted.imp goesBefore_iff.1

end Dependency

namespace Elements

variable {elements : Elements} {reaches : Closures} {deps : List Dependency}

/-- Whether each of the dependencies comes after those of the others that it reaches. -/
def Respects (elements : Elements) (deps : List Dependency) : Prop :=
  deps.Pairwise fun earlier later => ¬elements.Follows earlier.name later.name

/-- Whether the closures of the names of dependencies are known, and no cycle is reached from them. -/
structure Charted (elements : Elements) (reaches : Closures) (deps : List Dependency) : Prop where
  known : ∀ dep ∈ deps, ∀ m, m ∈ (reaches.lookup dep.name).getD [] ↔ elements.Follows dep.name m
  clear : ∀ dep ∈ deps, elements.Clear dep.name

theorem Charted.subset {rest : List Dependency} (h : elements.Charted reaches deps)
    (hsub : ∀ dep ∈ rest, dep ∈ deps) : elements.Charted reaches rest :=
  ⟨fun dep hdep => h.known dep (hsub dep hdep), fun dep hdep => h.clear dep (hsub dep hdep)⟩

theorem Charted.irrefl (h : elements.Charted reaches deps) {dep : Dependency} (hdep : dep ∈ deps) :
    ¬elements.Follows dep.name dep.name :=
  h.clear dep hdep _ .refl

/-- A dependency is ready if it reaches none of the list. -/
theorem Charted.isReady_iff (h : elements.Charted reaches deps) {dep : Dependency}
    (hdep : dep ∈ deps) :
    Dependency.isReady reaches deps dep = true ↔
      ∀ other ∈ deps, ¬elements.Follows dep.name other.name := by
  rw [Dependency.isReady, List.all_eq_true]
  constructor
  · intro hready other hother hfollows
    rcases Bool.or_eq_true_iff.1 (hready other hother) with hsame | hout
    · have hname : other.name = dep.name := by simpa using hsame
      exact h.irrefl hdep (hname ▸ hfollows)
    · have hnot : other.name ∉ (reaches.lookup dep.name).getD [] := by simpa using hout
      exact hnot ((h.known dep hdep _).2 hfollows)
  · intro hnone other hother
    have hnot : other.name ∉ (reaches.lookup dep.name).getD [] :=
      fun hin => hnone other hother ((h.known dep hdep _).1 hin)
    simpa using .inr hnot

/-- Without cycles, something in a list reaches nothing in it. -/
theorem Charted.exists_ready (h : elements.Charted reaches deps) (hne : deps ≠ []) :
    ∃ dep ∈ deps, ∀ other ∈ deps, ¬elements.Follows dep.name other.name := by
  induction deps with
  | nil => exact absurd rfl hne
  | cons first rest ih =>
    have hfirst : ¬elements.Follows first.name first.name := h.irrefl List.mem_cons_self
    by_cases hrest : rest = []
    · subst hrest
      exact ⟨first, List.mem_cons_self, by simpa using hfirst⟩
    · obtain ⟨dep, hdep, hnone⟩ := ih (h.subset fun _ => List.mem_cons_of_mem _) hrest
      by_cases hback : elements.Follows dep.name first.name
      -- then what the first one reaches is reached from the other one too
      · refine ⟨first, List.mem_cons_self, List.forall_mem_cons.2 ⟨hfirst, ?_⟩⟩
        exact fun other hother hfollows => hnone other hother (hback.trans hfollows)
      · exact ⟨dep, List.mem_cons_of_mem _ hdep, List.forall_mem_cons.2 ⟨hback, hnone⟩⟩

/-- The first choice is always one that is ready. -/
theorem Charted.find?_isSome (h : elements.Charted reaches deps) (hne : deps ≠ []) :
    (deps.find? (Dependency.isReady reaches deps)).isSome := by
  obtain ⟨dep, hdep, hnone⟩ := h.exists_ready hne
  exact List.find?_isSome.2 ⟨dep, hdep, (h.isReady_iff hdep).2 hnone⟩

theorem arrange_cons {first dep : Dependency} {rest : List Dependency}
    (hfound : (first :: rest).find? (Dependency.isReady reaches (first :: rest)) = some dep) :
    Dependency.arrange reaches (first :: rest) =
      dep :: Dependency.arrange reaches
        ((first :: rest).eraseP (Dependency.isReady reaches (first :: rest))) := by
  rw [Dependency.arrange]
  split
  · next d hd =>
    obtain rfl : dep = d := Option.some.inj (hfound.symm.trans hd)
    rfl
  · next hnone =>
    rw [hfound] at hnone
    cases hnone

/-- An arrangement is a valid order. -/
theorem Charted.respects_arrange (h : elements.Charted reaches deps) :
    elements.Respects (Dependency.arrange reaches deps) := by
  induction deps using Dependency.arrange.induct reaches with
  | case1 =>
    rw [Dependency.arrange]
    exact .nil
  | case2 first rest ready dep hfound ih =>
    have hdep : dep ∈ first :: rest := List.mem_of_find?_eq_some hfound
    have hready : ready dep = true := List.find?_some hfound
    rw [arrange_cons hfound]
    refine List.pairwise_cons.2 ⟨fun other hother => ?_, ih (h.subset fun _ => List.mem_of_mem_eraseP)⟩
    have hmem := (Dependency.arrange_perm reaches _).mem_iff.1 hother
    exact (h.isReady_iff hdep).1 hready other (List.mem_of_mem_eraseP hmem)
  | case3 first rest ready hnone ih =>
    have hsome := h.find?_isSome (List.cons_ne_nil first rest)
    rw [hnone] at hsome
    cases hsome

/-- The head of a valid order of dependencies with the keys of a list has the key of one in the list
that is ready. -/
theorem Charted.exists_head (h : elements.Charted reaches deps) {head : Dependency}
    {tail : List Dependency} (hkeys : ((head :: tail).map Dependency.key).Perm (deps.map Dependency.key))
    (hvalid : elements.Respects (head :: tail)) :
    ∃ dep ∈ deps, dep.key = head.key ∧ Dependency.isReady reaches deps dep = true := by
  obtain ⟨dep, hdep, hkey⟩ := List.mem_map.1 (hkeys.mem_iff.1 List.mem_cons_self)
  have hname : dep.name = head.name := Dependency.name_eq_of_key_eq hkey
  refine ⟨dep, hdep, hkey, (h.isReady_iff hdep).2 fun other hother hfollows => ?_⟩
  obtain ⟨same, hsame, hkey'⟩ := List.mem_map.1 (hkeys.mem_iff.2 (List.mem_map_of_mem hother))
  have hname' : same.name = other.name := Dependency.name_eq_of_key_eq hkey'
  rcases List.mem_cons.1 hsame with rfl | htail
  · exact h.irrefl hdep (by rwa [← hname', ← hname] at hfollows)
  · exact (List.pairwise_cons.1 hvalid).1 same htail (by rwa [← hname, hname'])

/-- What is found first in a sorted list is no greater than anything else that is ready. -/
theorem key_le_of_find? {ready : Dependency → Bool} {dep other : Dependency}
    (hsorted : deps.Pairwise fun a b => a.key ≤ b.key) (hfound : deps.find? ready = some dep)
    (hother : other ∈ deps) (hready : ready other = true) : dep.key ≤ other.key := by
  obtain ⟨-, before, after, rfl, hbefore⟩ := List.find?_eq_some_iff_append.1 hfound
  have hafter := (List.pairwise_append.1 hsorted).2.1
  rcases List.mem_append.1 hother with hin | hin
  · have hnot := hbefore other hin
    rw [hready] at hnot
    cases hnot
  · rcases List.mem_cons.1 hin with rfl | hin
    · exact le_rfl
    · exact (List.pairwise_cons.1 hafter).1 other hin

/-- The arrangement of a sorted list is no greater than any valid order of the same keys. -/
theorem Charted.arrange_le (h : elements.Charted reaches deps)
    (hsorted : deps.Pairwise fun a b => a.key ≤ b.key) {other : List Dependency}
    (hkeys : (other.map Dependency.key).Perm (deps.map Dependency.key))
    (hvalid : elements.Respects other) :
    (Dependency.arrange reaches deps).map Dependency.key ≤ other.map Dependency.key := by
  induction deps using Dependency.arrange.induct reaches generalizing other with
  | case1 =>
    obtain rfl : other = [] := by simpa using hkeys.length_eq
    rw [Dependency.arrange]
  | case2 first rest ready dep hfound ih =>
    cases other with
    | nil => exact absurd hkeys.length_eq (by simp)
    | cons head tail =>
      obtain ⟨same, hsame, hkey, hready⟩ := h.exists_head hkeys hvalid
      have hle : dep.key ≤ head.key := hkey ▸ key_le_of_find? hsorted hfound hsame hready
      rw [arrange_cons hfound, List.map_cons, List.map_cons]
      rcases hle.lt_or_eq with hlt | heq
      · exact le_of_lt (List.Lex.rel hlt)
      · have htaken := (Dependency.perm_cons_eraseP hfound).map Dependency.key
        have hrest : (tail.map Dependency.key).Perm
            (((first :: rest).eraseP ready).map Dependency.key) := by
          refine List.Perm.cons_inv (hkeys.trans ?_) (a := head.key)
          rw [← heq]
          exact htaken.symm
        rw [heq]
        refine List.cons_le_cons head.key
          (ih (h.subset fun _ => List.mem_of_mem_eraseP) ?_ hrest ?_)
        · exact hsorted.sublist List.eraseP_sublist
        · exact (List.pairwise_cons.1 hvalid).2
  | case3 first rest ready hnone ih =>
    have hsome := h.find?_isSome (List.cons_ne_nil first rest)
    rw [hnone] at hsome
    cases hsome

/-- Dependencies in their order are the least valid order of the dependencies. -/
theorem Charted.order_least (h : elements.Charted reaches deps) :
    elements.Respects (Dependency.order reaches deps) ∧
    ∀ other : List Dependency, other.Perm deps → elements.Respects other →
      (Dependency.order reaches deps).map Dependency.key ≤ other.map Dependency.key := by
  have hperm := List.mergeSort_perm deps Dependency.goesBefore
  have hcharted := h.subset fun dep hdep => hperm.mem_iff.1 hdep
  refine ⟨hcharted.respects_arrange, fun other hother hvalid => ?_⟩
  exact hcharted.arrange_le (Dependency.pairwise_sort deps)
    ((hother.trans hperm.symm).map Dependency.key) hvalid

end Elements

end BuildGraph
