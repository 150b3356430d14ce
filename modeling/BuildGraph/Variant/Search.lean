import BuildGraph.Error
import BuildGraph.Variant.Configuration

/-!
# The search for variants

Every element that is reached from the target gets one variant. The search goes depth first over a
pool of configurations. It tries the variants that a dependency admits in the order they are declared;
a candidate that a dependency in effect does not admit is given up for the next one, and the first
pool that configures everything is the answer.

A request by name may replace an entry of the pool, so requests that keep replacing each other can
make the search go round for ever. Inside a search that ends no configuration is begun twice on one
pool, so `Elements.searchDepth` levels are enough for it. A search that needs more has no end.
-/

namespace BuildGraph

/-- What a search came to: a pool, or the conflict that it could not avoid; none if it did not end
within its depth. -/
abbrev Attempt := Option (Except VariantError Pool)

namespace Attempt

/-- The first attempt that succeeds among the candidates, or the last conflict. -/
def first (attempt : Configuration → Attempt) :
    (candidates : List Configuration) → (last : VariantError) → Attempt
  | [], last => some (.error last)
  | c :: rest, _ =>
    match attempt c with
    | none => none
    | some (.ok pool) => some (.ok pool)
    | some (.error e) => first attempt rest e

end Attempt

namespace Elements

/-- The variants that a dependency admits for its element. -/
def admitted (dep : Dependency) (element : Element) : List (Option String) :=
  match dep.variant with
  | some variant => [some variant]
  | none =>
    if element.variants.isEmpty then [none] else element.variants.map fun v => some v.name

/-- The configurations that a dependency admits, in the order they are tried. -/
def candidates (elements : Elements) (dep : Dependency) : List Configuration :=
  match elements.find? dep.name with
  | some element => (admitted dep element).map (Configuration.of (some dep) element)
  | none => []

theorem mem_candidates_iff {elements : Elements} {dep : Dependency} {c : Configuration} :
    c ∈ elements.candidates dep ↔ ∃ element, elements.find? dep.name = some element ∧
      ∃ variant ∈ admitted dep element, c = .of (some dep) element variant := by
  rw [candidates]
  cases elements.find? dep.name with
  | none => simp
  | some element => simp [eq_comm]

/-- Configures the elements of the dependencies one after the other, each by `configure`. A later one
that cannot be configured sends the search back to the next candidate of an earlier one. -/
def discharge (elements : Elements) (configure : Configuration → Pool → Attempt) :
    (deps : List Dependency) → (pool : Pool) → Attempt
  | [], pool => some (.ok pool)
  | dep :: rest, pool =>
    Attempt.first
      (fun candidate =>
        match configure candidate pool with
        | some (.ok pool) => discharge elements configure rest pool
        | attempt => attempt)
      (elements.candidates dep) (.missing dep)

/-- Puts a configuration into a pool and configures its dependencies, at most `depth` levels deep. -/
def configure (elements : Elements) : (depth : Nat) → Configuration → Pool → Attempt
  | 0, _, _ => none
  | depth + 1, c, pool =>
    match pool.conflict? c with
    | some e => some (.error e)
    | none =>
      if pool.settles c then some (.ok pool)
      else discharge elements (configure elements depth) c.deps (pool.put c)

section

variable {elements : Elements} {depth : Nat} {c : Configuration} {pool : Pool}

theorem configure_conflict {e : VariantError} (h : pool.conflict? c = some e) :
    elements.configure (depth + 1) c pool = some (.error e) := by
  simp [configure, h]

theorem configure_settled (hn : pool.conflict? c = none) (hs : pool.settles c = true) :
    elements.configure (depth + 1) c pool = some (.ok pool) := by
  simp [configure, hn, hs]

theorem configure_put (hn : pool.conflict? c = none) (hs : pool.settles c = false) :
    elements.configure (depth + 1) c pool =
      elements.discharge (elements.configure depth) c.deps (pool.put c) := by
  simp [configure, hn, hs]

end

/-- A bound on the number of configurations that the elements of a table may be asked for in: for each
element one without a variant and one for each variant it declares, one for each dependency, which
may name any variant, and one for the target. -/
def configurationCount (elements : Elements) : Nat :=
  elements.toList.foldr (fun e n => 1 + e.variants.length + e.declaredDeps.length + n) 1

/-- A depth that every search that ends stays within: a bound on the number of configurations, by name
or not, times one on the number of pools. -/
def searchDepth (elements : Elements) : Nat :=
  let count := elements.configurationCount
  2 * count * Nat.pow (count + 1) count + 1

/-- The variant of the target: the one asked for, or else the first it declares. -/
def targetVariant (element : Element) (variant : Option String) : Option String :=
  match variant with
  | some variant => some variant
  | none => element.variants.head?.map Variant.name

/-- Finds a variant for every element that is reached from the target. -/
def resolve (elements : Elements) (target : String) (variant : Option String) :
    Except LoadError Pool :=
  match elements.find? target with
  | none => .ok .empty
  | some element =>
    let c := Configuration.of none element (targetVariant element variant)
    match elements.configure elements.searchDepth c .empty with
    | some attempt => attempt.mapError .variantConflict
    | none => .error (.endlessSearch target)

end Elements

end BuildGraph
