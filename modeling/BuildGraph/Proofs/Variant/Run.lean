import BuildGraph.Variant.Request
import BuildGraph.Variant.Search
import Mathlib.Logic.Relation

/-!
# Accepted runs of the search

A search that succeeds has, behind all its backtracking, one run that it accepts: a sequence of steps
on the dependencies still to be discharged and the pool so far. Laws about the pool that a search
gives are laws of `Elements.Step`, carried along a run.
-/

namespace BuildGraph

/-- The dependencies still to be discharged, first the next one, and the pool so far. -/
abbrev SearchState := List Dependency × Pool

namespace Attempt

theorem first_eq_ok {attempt : Configuration → Attempt} {cs : List Configuration}
    {last : VariantError} {pool : Pool} (h : first attempt cs last = some (.ok pool)) :
    ∃ c ∈ cs, attempt c = some (.ok pool) := by
  induction cs generalizing last with
  | nil => simp [first] at h
  | cons c rest ih =>
    rw [first] at h
    split at h
    · cases h
    · next hc => exact ⟨c, List.mem_cons_self, hc.trans h⟩
    · obtain ⟨d, hd, hok⟩ := ih h
      exact ⟨d, List.mem_cons_of_mem _ hd, hok⟩

end Attempt

namespace Elements

variable {elements : Elements}

/-- One step of an accepted run: the next dependency is given one of its candidates, which goes with
the pool and is either settled in it already or put into it. -/
inductive Step (elements : Elements) : SearchState → SearchState → Prop
  | settle {dep : Dependency} {rest : List Dependency} {pool : Pool} {c : Configuration} :
    c ∈ elements.candidates dep → pool.conflict? c = none → pool.settles c = true →
    Step elements (dep :: rest, pool) (rest, pool)
  | put {dep : Dependency} {rest : List Dependency} {pool : Pool} {c : Configuration} :
    c ∈ elements.candidates dep → pool.conflict? c = none → pool.settles c = false →
    Step elements (dep :: rest, pool) (c.deps ++ rest, pool.put c)

/-- Any number of steps. -/
abbrev Run (elements : Elements) : SearchState → SearchState → Prop :=
  Relation.ReflTransGen elements.Step

/-- What a successful `configure` has done: the configuration goes with the pool, and if it was not
settled, a run from the pool with it discharges what it needs. -/
structure Configures (elements : Elements) (c : Configuration) (pool pool' : Pool) : Prop where
  admitted : pool.conflict? c = none
  settled : pool.settles c = true → pool' = pool
  run : pool.settles c = false → elements.Run (c.deps, pool.put c) ([], pool')

/-- Dependencies behind those of a step wait until it is done. -/
theorem Step.append {s t : SearchState} (h : elements.Step s t) (rest : List Dependency) :
    elements.Step (s.1 ++ rest, s.2) (t.1 ++ rest, t.2) := by
  cases h with
  | settle hc hn hs => exact .settle hc hn hs
  | put hc hn hs => simpa using Step.put hc hn hs

theorem Run.append {s t : SearchState} (h : elements.Run s t) (rest : List Dependency) :
    elements.Run (s.1 ++ rest, s.2) (t.1 ++ rest, t.2) :=
  h.lift (fun s => (s.1 ++ rest, s.2)) fun _ _ hs => hs.append rest

/-- A candidate that was configured takes its dependency off the front. -/
theorem Configures.run_cons {c : Configuration} {pool pool' : Pool} {dep : Dependency}
    (h : elements.Configures c pool pool') (hc : c ∈ elements.candidates dep)
    (rest : List Dependency) : elements.Run (dep :: rest, pool) (rest, pool') := by
  cases hs : pool.settles c with
  | true =>
    rw [h.settled hs]
    exact .single (.settle hc h.admitted hs)
  | false =>
    have hput : elements.Step (dep :: rest, pool) (c.deps ++ rest, pool.put c) :=
      .put hc h.admitted hs
    exact .head hput (by simpa using (h.run hs).append rest)

/-- What holds of every candidate of a declared dependency holds of every entry that a run puts into
the pool; and what a run waits for is declared. -/
theorem Run.keeps {p : Configuration → Prop}
    (hdeps : ∀ c, p c → ∀ dep ∈ c.deps, dep ∈ elements.declaredDeps)
    (hcand : ∀ dep ∈ elements.declaredDeps, ∀ c ∈ elements.candidates dep, p c)
    {s t : SearchState} (h : elements.Run s t) (hwait : ∀ dep ∈ s.1, dep ∈ elements.declaredDeps)
    (hpool : ∀ c ∈ s.2.toList, p c) :
    (∀ dep ∈ t.1, dep ∈ elements.declaredDeps) ∧ ∀ c ∈ t.2.toList, p c := by
  induction h with
  | refl => exact ⟨hwait, hpool⟩
  | tail _ hstep ih =>
    obtain ⟨hwait, hpool⟩ := ih
    cases hstep with
    | settle => exact ⟨fun dep hdep => hwait dep (List.mem_cons_of_mem _ hdep), hpool⟩
    | @put dep rest pool c hc =>
      have hnew : p c := hcand dep (hwait dep List.mem_cons_self) c hc
      refine ⟨?_, ?_⟩
      · intro d hd
        rcases List.mem_append.1 hd with hown | hrest
        · exact hdeps c hnew d hown
        · exact hwait d (List.mem_cons_of_mem _ hrest)
      · exact Roster.forall_mem_put hnew hpool

theorem discharge_run {configure : Configuration → Pool → Attempt}
    (hconf : ∀ c pool pool', configure c pool = some (.ok pool') →
      elements.Configures c pool pool')
    {deps : List Dependency} {pool pool' : Pool}
    (h : elements.discharge configure deps pool = some (.ok pool')) :
    elements.Run (deps, pool) ([], pool') := by
  -- each dependency is taken off by the candidate that succeeded
  induction deps generalizing pool with
  | nil =>
    cases h
    exact .refl
  | cons dep rest ih =>
    obtain ⟨c, hc, hok⟩ := Attempt.first_eq_ok h
    split at hok
    · next mid hmid => exact ((hconf c pool mid hmid).run_cons hc rest).trans (ih hok)
    · next hne => exact absurd hok (hne pool')

theorem configure_run {depth : Nat} {c : Configuration} {pool pool' : Pool}
    (h : elements.configure depth c pool = some (.ok pool')) :
    elements.Configures c pool pool' := by
  induction depth generalizing c pool pool' with
  | zero => simp [configure] at h
  | succ depth ih =>
    cases hn : pool.conflict? c with
    | some e => simp [configure_conflict hn] at h
    | none =>
      cases hs : pool.settles c with
      | true =>
        rw [configure_settled hn hs] at h
        cases h
        exact ⟨hn, fun _ => rfl, fun hf => by simp [hs] at hf⟩
      | false =>
        rw [configure_put hn hs] at h
        exact ⟨hn, fun ht => by simp [hs] at ht, fun _ => discharge_run (fun _ _ _ => ih) h⟩

/-- The configuration that the target starts in. -/
def start (element : Element) (variant : Option String) : Configuration :=
  .of none element (targetVariant element variant)

theorem conflict?_empty (c : Configuration) : Pool.conflict? .empty c = none := rfl

theorem mem_start {e : Element} {variant : Option String} {c : Configuration}
    (h : c ∈ (Roster.put .empty (start e variant)).toList) : c = start e variant := by
  simpa [Named.put] using h

/-- The target is in the pool that a search starts from. -/
theorem find?_start {target : String} {e : Element} (known : elements.find? target = some e)
    (variant : Option String) :
    (Roster.put .empty (start e variant)).find? target = some (start e variant) :=
  Roster.find?_put_self (Named.name_of_find? known : e.name = target)

/-- A target that resolves has an accepted run from the pool of its own configuration. -/
theorem resolve_run {target : String} {variant : Option String} {element : Element} {pool : Pool}
    (known : elements.find? target = some element)
    (h : elements.resolve target variant = .ok pool) :
    elements.Run ((start element variant).deps, .put .empty (start element variant)) ([], pool) := by
  rw [resolve, known] at h
  simp only at h
  split at h
  · next attempt hattempt =>
    cases attempt with
    | error e => cases h
    | ok found =>
      cases h
      exact (configure_run hattempt).run rfl
  · cases h

end Elements

end BuildGraph
