import BuildGraph.Proofs.Variant.Depth

/-!
# Searches that end

A request by name may replace an entry of the pool, so neither the pool nor what waits to be
discharged shrinks from one level of a search to the next. What shrinks is `Elements.weight`: a
request by name that is on no cycle of declared dependencies leads to an element from which less can
be reached, and any other request puts an element into the pool that it did not hold.
-/

namespace BuildGraph

namespace Attempt

theorem first_isSome {attempt : Configuration → Attempt} {cs : List Configuration}
    (h : ∀ c ∈ cs, (attempt c).isSome) (last : VariantError) : (first attempt cs last).isSome := by
  induction cs generalizing last with
  | nil => rfl
  | cons c rest ih =>
    have hrest := ih fun d hd => h d (List.mem_cons_of_mem _ hd)
    obtain ⟨a, ha⟩ := Option.isSome_iff_exists.1 (h c List.mem_cons_self)
    rw [first, ha]
    cases a with
    | ok pool => rfl
    | error e => exact hrest e

end Attempt

namespace Elements

variable {elements : Elements}

/-- Whether an element declares a dependency on a name, in whatever variant. -/
def DependsOn (elements : Elements) (m n : String) : Prop :=
  ∃ e, elements.find? m = some e ∧ ∃ dep ∈ e.declaredDeps, dep.name = n

/-- Whether no dependency that names a variant is on a cycle of declared dependencies. -/
def RequestsAcyclic (elements : Elements) : Prop :=
  ∀ m e, elements.find? m = some e → ∀ dep ∈ e.declaredDeps, dep.variant.isSome →
    ¬Relation.ReflTransGen elements.DependsOn dep.name m

open Classical in
/-- The elements that are reached from a name by declared dependencies. -/
noncomputable def range (elements : Elements) (n : String) : Finset String :=
  elements.names.toFinset.filter (Relation.ReflTransGen elements.DependsOn n)

/-- The elements that a pool does not hold. -/
def missing (elements : Elements) (pool : Pool) : Finset String :=
  elements.names.toFinset.filter fun n => (pool.find? n).isNone

/-- A bound on the levels of a search from a configuration and a pool. -/
noncomputable def weight (elements : Elements) (c : Configuration) (pool : Pool) : Nat :=
  2 * (elements.range c.element).card + (elements.missing pool).card + c.isExplicit.toNat

theorem range_subset {m n : String} (h : elements.DependsOn m n) :
    elements.range n ⊆ elements.range m := by
  intro k hk
  simp only [range, Finset.mem_filter] at hk ⊢
  exact ⟨hk.1, .head h hk.2⟩

/-- A request by name leads to where less can be reached. -/
theorem range_ssubset (acyclic : elements.RequestsAcyclic) {m : String} {e : Element}
    (he : elements.find? m = some e) {dep : Dependency} (hdep : dep ∈ e.declaredDeps)
    (hv : dep.variant.isSome) : elements.range dep.name ⊂ elements.range m := by
  refine (Finset.ssubset_iff_of_subset (range_subset ⟨e, he, dep, hdep, rfl⟩)).2 ⟨m, ?_, ?_⟩
  · have hm : m ∈ elements.names := Roster.find?_isSome_iff.1 (by rw [he]; rfl)
    simp only [range, Finset.mem_filter, List.mem_toFinset]
    exact ⟨hm, .refl⟩
  · intro hm
    simp only [range, Finset.mem_filter] at hm
    exact acyclic m e he dep hdep hv hm.2

theorem missing_subset {P Q : Pool} (h : ∀ n, (P.find? n).isSome → (Q.find? n).isSome) :
    elements.missing Q ⊆ elements.missing P := by
  intro n hn
  simp only [missing, Finset.mem_filter, Option.isNone_iff_eq_none] at hn ⊢
  refine ⟨hn.1, ?_⟩
  cases hp : P.find? n with
  | none => rfl
  | some c =>
    have hq := h n (by rw [hp]; rfl)
    rw [hn.2] at hq
    cases hq

/-- What comes into a pool is no longer missing. -/
theorem missing_put_ssubset {c : Configuration} {pool : Pool} (hc : elements.Listed c)
    (hnew : pool.find? c.element = none) : elements.missing (pool.put c) ⊂ elements.missing pool := by
  have hsub : elements.missing (pool.put c) ⊆ elements.missing pool := by
    exact missing_subset fun n hn => Roster.find?_put_isSome c hn
  obtain ⟨e, he, -⟩ := hc
  refine (Finset.ssubset_iff_of_subset hsub).2 ⟨c.element, ?_, ?_⟩
  · have hm : c.element ∈ elements.names := Roster.find?_isSome_iff.1 (by rw [he]; rfl)
    simp [missing, hm, hnew]
  · have hname : Named.name c = c.element := rfl
    simp [missing, Roster.find?_put, hname]

/-- One level further down, a search weighs less. -/
theorem weight_lt (acyclic : elements.RequestsAcyclic) {c : Configuration} {pool : Pool}
    (hc : elements.Listed c) (hs : pool.settles c = false) {dep : Dependency} (hdep : dep ∈ c.deps)
    {cand : Configuration} (hcand : cand ∈ elements.candidates dep) {pool' : Pool}
    (hkeep : ∀ n, ((Roster.put pool c).find? n).isSome → (pool'.find? n).isSome) :
    elements.weight cand pool' < elements.weight c pool := by
  obtain ⟨-, helem, -⟩ := candidate_spec hcand
  have hlisted := hc
  obtain ⟨e, he, hdeps⟩ := hc
  have hdecl : dep ∈ e.declaredDeps := Element.mem_declaredDeps_of_mem_depsFor (hdeps ▸ hdep)
  have hmissing : (elements.missing pool').card ≤ (elements.missing (pool.put c)).card :=
    Finset.card_le_card (missing_subset hkeep)
  have hput : (elements.missing (pool.put c)).card ≤ (elements.missing pool).card :=
    Finset.card_le_card (missing_subset fun _ hn => Roster.find?_put_isSome c hn)
  have hrange : (elements.range cand.element).card ≤ (elements.range c.element).card :=
    Finset.card_le_card (helem ▸ range_subset ⟨e, he, dep, hdecl, rfl⟩)
  have hflag : cand.isExplicit = dep.variant.isSome := isExplicit_candidate hcand
  rw [weight, weight]
  cases hv : dep.variant.isSome with
  | true =>
    have hless : (elements.range cand.element).card < (elements.range c.element).card :=
      Finset.card_lt_card (helem ▸ range_ssubset acyclic he hdecl hv)
    rw [hflag, hv]
    simp only [Bool.toNat_true]
    omega
  | false =>
    rw [hflag, hv]
    cases hx : c.isExplicit with
    | true =>
      simp only [Bool.toNat_true, Bool.toNat_false]
      omega
    | false =>
      -- a configuration that is not asked for by name only comes in where there is none
      have hnew : pool.find? c.element = none := by
        cases hfound : pool.find? c.element with
        | none => rfl
        | some entry =>
          have hexplicit := (Pool.ne_of_settles_eq_false hs hfound).2
          rw [hx] at hexplicit
          cases hexplicit
      have hless := Finset.card_lt_card (missing_put_ssubset hlisted hnew)
      simp only [Bool.toNat_false]
      omega

theorem discharge_isSome {f : Configuration → Pool → Attempt} {p : Pool → Prop}
    {deps : List Dependency}
    (hkeep : ∀ dep ∈ deps, ∀ c ∈ elements.candidates dep, ∀ pool pool', p pool →
      f c pool = some (.ok pool') → p pool')
    (hf : ∀ dep ∈ deps, ∀ c ∈ elements.candidates dep, ∀ pool, p pool → (f c pool).isSome)
    {pool : Pool} (hpool : p pool) : (elements.discharge f deps pool).isSome := by
  induction deps generalizing pool with
  | nil => rfl
  | cons dep rest ih =>
    refine Attempt.first_isSome ?_ _
    intro c hc
    obtain ⟨a, ha⟩ := Option.isSome_iff_exists.1 (hf dep List.mem_cons_self c hc pool hpool)
    rw [ha]
    cases a with
    | error e => rfl
    | ok mid =>
      exact ih (fun d hd => hkeep d (List.mem_cons_of_mem _ hd))
        (fun d hd => hf d (List.mem_cons_of_mem _ hd))
        (hkeep dep List.mem_cons_self c hc pool mid hpool ha)

/-- A search ends within as many levels as it weighs. -/
theorem configure_isSome_of_weight_lt (acyclic : elements.RequestsAcyclic) {d : Nat}
    {c : Configuration} {pool : Pool} (hc : elements.Listed c) (hd : elements.weight c pool < d) :
    (elements.configure d c pool).isSome := by
  induction d generalizing c pool with
  | zero => omega
  | succ d ih =>
    cases hn : pool.conflict? c with
    | some e => rw [configure_conflict hn]; rfl
    | none =>
      cases hs : pool.settles c with
      | true => rw [configure_settled hn hs]; rfl
      | false =>
        rw [configure_put hn hs]
        -- of the pools on the way all that matters is that they hold what the first one holds
        refine discharge_isSome
          (p := fun pool' => ∀ n, ((Roster.put pool c).find? n).isSome → (pool'.find? n).isSome)
          ?_ ?_ fun _ hn => hn
        · intro dep hdep cand hcand pool' pool'' hp hok n hin
          exact (configure_run hok).find?_isSome (hp n hin)
        · intro dep hdep cand hcand pool' hp
          have hlt := weight_lt acyclic hc hs hdep hcand hp
          exact ih (listed_candidate hcand) (by omega)

theorem weight_le (elements : Elements) (c : Configuration) (pool : Pool) :
    elements.weight c pool ≤ 3 * elements.toList.length + 1 := by
  have hnames : elements.names.toFinset.card ≤ elements.toList.length := by
    refine Nat.le_trans (List.toFinset_card_le _) ?_
    simp [Roster.names, Named.names]
  have hrange : (elements.range c.element).card ≤ elements.names.toFinset.card := by
    classical
    exact Finset.card_filter_le _ _
  have hmissing : (elements.missing pool).card ≤ elements.names.toFinset.card :=
    Finset.card_filter_le _ _
  have hflag : c.isExplicit.toNat ≤ 1 := Bool.toNat_le _
  rw [weight]
  omega

/-- If no dependency that names a variant is on a cycle of declared dependencies, then every search
over the table ends, at a depth that is linear in the number of elements; and no target is said to
have an endless search. -/
theorem search_ends (acyclic : elements.RequestsAcyclic) :
    (∀ c pool, elements.Listed c →
      (elements.configure (3 * elements.toList.length + 2) c pool).isSome) ∧
    ∀ target variant, elements.resolve target variant ≠ .error (.endlessSearch target) := by
  have hends : ∀ c pool, elements.Listed c →
      (elements.configure (3 * elements.toList.length + 2) c pool).isSome := fun c pool hc =>
    configure_isSome_of_weight_lt acyclic hc (Nat.lt_succ_of_le (weight_le elements c pool))
  refine ⟨hends, fun target variant hend => ?_⟩
  cases known : elements.find? target with
  | none => simp [resolve, known] at hend
  | some e =>
    have hstart := hends (start e variant) .empty (listed_start known variant)
    rw [(resolve_eq_endlessSearch_iff known).1 hend] at hstart
    cases hstart

/-- The elements `a` and `b` need each other, in no variant of a name. -/
def cyclicTable : Elements := .ofList [
  .bare "a" [.between "a" "b" none, .between "a" "c" (some "x")] [],
  .bare "b" [.between "b" "a" none] [],
  .bare "c" [] [("x", []), ("y", [])]]

theorem cyclicTable_requestsAcyclic : cyclicTable.RequestsAcyclic := by
  have hleaf : ∀ k, ¬cyclicTable.DependsOn "c" k := by
    rintro k ⟨e, he, dep, hdep, -⟩
    obtain rfl := Option.some.inj he
    simp [Element.declaredDeps, Element.bare] at hdep
  intro m e he dep hdep hv hreach
  have hlist : cyclicTable.declaredDeps =
      [.between "a" "b" none, .between "a" "c" (some "x"), .between "b" "a" none] := rfl
  have hmem : dep ∈ cyclicTable.declaredDeps :=
    List.mem_flatMap.2 ⟨e, Named.mem_of_find? he, hdep⟩
  have hrequest : dep = .between "a" "c" (some "x") := by
    rw [hlist] at hmem
    simp only [List.mem_cons, List.not_mem_nil, or_false] at hmem
    rcases hmem with rfl | rfl | rfl
    · cases hv
    · rfl
    · cases hv
  rw [hrequest] at hreach
  rcases hreach.cases_head with rfl | ⟨k, hk, -⟩
  · exact hleaf _ ⟨e, he, dep, hdep, rfl⟩
  · exact hleaf k hk

theorem cyclicTable_search_ends : cyclicTable.RequestsAcyclic ∧
    (∀ c pool, cyclicTable.Listed c → (cyclicTable.configure 11 c pool).isSome) ∧
    ∀ target variant, cyclicTable.resolve target variant ≠ .error (.endlessSearch target) :=
  ⟨cyclicTable_requestsAcyclic, search_ends cyclicTable_requestsAcyclic⟩

end Elements

end BuildGraph
