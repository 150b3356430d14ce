import BuildGraph.Variant.Error

/-!
# Configurations

A configuration is an element in a candidate variant, with the dependencies in effect in it. A pool
holds one configuration for each element met by a search. Every dependency in effect in a pool is a
demand on the configuration of the element it names.
-/

namespace BuildGraph

/-- An element in a candidate variant. -/
structure Configuration where
  /-- The dependency that asked for the element; the target is asked for by none. -/
  request : Option Dependency
  /-- The name of the element. -/
  element : String
  variant : Option String
  /-- The dependencies in effect in the variant. -/
  deps : List Dependency

instance : Named Configuration := ⟨Configuration.element⟩

/-- Configurations of different elements. -/
abbrev Pool := Roster Configuration

namespace Configuration

/-- The configuration of an element in a variant. -/
def of (request : Option Dependency) (element : Element) (variant : Option String) :
    Configuration :=
  ⟨request, element.name, variant, element.depsFor variant⟩

/-- Whether the variant was asked for by name. -/
def isExplicit (c : Configuration) : Bool :=
  (c.request.bind Dependency.variant).isSome

/-- Why a dependency in effect does not admit the configuration of the element it names. -/
def rejectedBy? (c : Configuration) (dep : Dependency) : Option VariantError :=
  if dep.name = c.element then
    if dep.owner = c.element then some (.circular c.element dep.place)
    else match dep.variant with
      | some requested =>
        if c.variant = some requested then none
        else some (.disagreement c.element dep.owner requested c.variant dep.place)
      | none => none
  else none

@[simp] theorem of_element (request : Option Dependency) (e : Element) (variant : Option String) :
    (of request e variant).element = e.name := rfl

@[simp] theorem of_variant (request : Option Dependency) (e : Element) (variant : Option String) :
    (of request e variant).variant = variant := rfl

theorem rejectedBy?_eq_none_iff {c : Configuration} {dep : Dependency} :
    c.rejectedBy? dep = none ↔ dep.name = c.element →
      dep.owner ≠ c.element ∧ ∀ v, dep.variant = some v → c.variant = some v := by
  rw [rejectedBy?]
  by_cases hname : dep.name = c.element
  · by_cases howner : dep.owner = c.element
    · simp [hname, howner]
    · cases hv : dep.variant with
      | none => simp [hname, howner]
      | some v => by_cases hc : c.variant = some v <;> simp [hname, howner, hc]
  · simp [hname]

end Configuration

namespace Pool

/-- All dependencies in effect, entry by entry. -/
def deps (pool : Pool) : List Dependency :=
  pool.toList.flatMap Configuration.deps

/-- Why a configuration does not go with the pool: the first dependency in effect that does not admit
it. -/
def conflict? (pool : Pool) (c : Configuration) : Option VariantError :=
  pool.deps.findSome? c.rejectedBy?

/-- Whether the pool already answers for the element of a configuration. Its entry is only replaced by
another variant that is asked for by name. -/
def settles (pool : Pool) (c : Configuration) : Bool :=
  match pool.find? c.element with
  | some entry => entry.variant == c.variant || !c.isExplicit
  | none => false

/-- A configuration goes with a pool if every dependency in effect on its element is one of another
element, and asks for no other variant. -/
theorem conflict?_eq_none_iff {pool : Pool} {c : Configuration} :
    pool.conflict? c = none ↔ ∀ entry ∈ pool.toList, ∀ dep ∈ entry.deps, dep.name = c.element →
      dep.owner ≠ c.element ∧ ∀ v, dep.variant = some v → c.variant = some v := by
  simp only [conflict?, deps, List.findSome?_eq_none_iff, List.mem_flatMap, forall_exists_index,
    and_imp, Configuration.rejectedBy?_eq_none_iff]
  exact ⟨fun h entry he dep hd => h dep entry he hd, fun h dep entry he hd => h entry he dep hd⟩

theorem settles_iff {pool : Pool} {c : Configuration} :
    pool.settles c = true ↔ ∃ entry, pool.find? c.element = some entry ∧
      (entry.variant = c.variant ∨ c.isExplicit = false) := by
  rw [settles]
  cases pool.find? c.element <;> simp

/-- What gets past an entry of its element: another variant that is asked for by name. -/
theorem ne_of_settles_eq_false {pool : Pool} {c : Configuration} (h : pool.settles c = false)
    {entry : Configuration} (he : pool.find? c.element = some entry) :
    entry.variant ≠ c.variant ∧ c.isExplicit = true := by
  rw [settles, he] at h
  simpa using h

end Pool

end BuildGraph
