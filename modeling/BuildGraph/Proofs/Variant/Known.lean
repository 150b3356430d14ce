import BuildGraph.Proofs.Failure
import BuildGraph.Proofs.Variant.Tried

/-!
# Searches over closed tables

A search reports a dependency as never loaded only if it has no candidate for it. It follows nothing
but declared dependencies, and in a table in which all of these name elements each has a candidate.
-/

namespace BuildGraph

/-- Whether an attempt does not fail because an element was never loaded. -/
def Attempt.Finds (attempt : Attempt) : Prop :=
  ∀ dep, attempt ≠ some (.error (.missing dep))

theorem Configuration.ne_missing_of_rejectedBy? {c : Configuration} {dep missed : Dependency} :
    c.rejectedBy? dep ≠ some (.missing missed) := by
  rw [rejectedBy?]
  split
  · split
    · simp
    · split
      · split <;> simp
      · simp
  · simp

theorem Pool.ne_missing_of_conflict? {pool : Pool} {c : Configuration} {missed : Dependency} :
    pool.conflict? c ≠ some (.missing missed) := by
  intro h
  obtain ⟨dep, -, hdep⟩ := List.exists_of_findSome?_eq_some h
  exact Configuration.ne_missing_of_rejectedBy? hdep

theorem Attempt.finds_none : Finds none := by
  intro dep h
  cases h

theorem Attempt.finds_ok (pool : Pool) : Finds (some (.ok pool)) := by
  intro dep h
  cases h

/-- Among candidates of which none misses anything the last conflict is not about something missing,
unless there is no candidate at all. -/
theorem Attempt.finds_first {attempt : Configuration → Attempt} {cs : List Configuration}
    {last : VariantError} (hcs : ∀ c ∈ cs, (attempt c).Finds)
    (hlast : cs = [] → ∀ dep, last ≠ .missing dep) : (first attempt cs last).Finds := by
  induction cs generalizing last with
  | nil =>
    intro dep h
    rw [first, Option.some.injEq, Except.error.injEq] at h
    exact hlast rfl dep h
  | cons c rest ih =>
    obtain ⟨hc, hrest⟩ := List.forall_mem_cons.1 hcs
    rw [first]
    split
    · exact finds_none
    · exact finds_ok _
    · next e he =>
      refine ih hrest fun _ dep hmissing => ?_
      exact hc dep (hmissing ▸ he)

namespace Elements

variable {elements : Elements}

theorem candidates_ne_nil {dep : Dependency} (known : (elements.find? dep.name).isSome) :
    elements.candidates dep ≠ [] := by
  obtain ⟨e, he⟩ := Option.isSome_iff_exists.1 known
  rw [candidates, he]
  dsimp only
  rw [Ne, List.map_eq_nil_iff, admitted]
  split
  · exact List.cons_ne_nil _ _
  · split
    · exact List.cons_ne_nil _ _
    · next hvariants => simpa using hvariants

theorem finds_discharge (closed : elements.Closed) {configure : Configuration → Pool → Attempt}
    (hconf : ∀ c pool, elements.Listed c → (configure c pool).Finds) {deps : List Dependency}
    (hdeps : ∀ dep ∈ deps, dep ∈ elements.declaredDeps) (pool : Pool) :
    (elements.discharge configure deps pool).Finds := by
  induction deps generalizing pool with
  | nil => exact Attempt.finds_ok pool
  | cons dep rest ih =>
    obtain ⟨hdep, hrest⟩ := List.forall_mem_cons.1 hdeps
    refine Attempt.finds_first ?_ fun hnone => absurd hnone (candidates_ne_nil (closed dep hdep))
    intro c hc
    split
    · next next _ => exact ih hrest next
    · exact hconf c pool (listed_candidate hc)

/-- A search in a closed table never misses an element, in whatever variants it tries the others. -/
theorem finds_configure (closed : elements.Closed) (depth : Nat) (c : Configuration) (pool : Pool)
    (hc : elements.Listed c) : (elements.configure depth c pool).Finds := by
  induction depth generalizing c pool with
  | zero => exact Attempt.finds_none
  | succ depth ih =>
    rw [configure]
    split
    · next e he =>
      intro dep h
      rw [Option.some.injEq, Except.error.injEq] at h
      exact Pool.ne_missing_of_conflict? (h ▸ he)
    · split
      · exact Attempt.finds_ok _
      · exact finds_discharge closed ih (fun _ hdep => hc.mem_declaredDeps hdep) _

theorem neverMisses_resolve (closed : elements.Closed) (target : String)
    (variant : Option String) : NeverMisses (elements.resolve target variant) := by
  rw [resolve]
  split
  · exact neverMisses_ok _
  · next e known =>
    dsimp only
    split
    · next attempt hattempt =>
      have hfinds := finds_configure closed elements.searchDepth _ .empty
        (listed_start known variant)
      rw [start, hattempt] at hfinds
      cases attempt with
      | ok pool => exact neverMisses_ok pool
      | error e =>
        refine neverMisses_error fun hmissed => ?_
        cases e with
        | missing dep => exact hfinds dep rfl
        | disagreement => exact hmissed
        | circular => exact hmissed
    · exact neverMisses_error id

end Elements

end BuildGraph
