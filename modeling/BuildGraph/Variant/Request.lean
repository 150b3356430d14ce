import BuildGraph.Error

/-!
# Variant requests

The target of a load and any dependency may name the variant they want. Before variants are chosen,
every request must name a variant that the element asked for declares.
-/

namespace BuildGraph.Elements

/-- The variant that a dependency asks for and its element does not declare. -/
def undeclared? (elements : Elements) (dep : Dependency) : Option String :=
  match dep.variant, elements.find? dep.name with
  | some variant, some element =>
    if (element.variant? variant).isNone then some variant else none
  | _, _ => none

/-- Every dependency declared in the table, whatever the variant. -/
def declaredDeps (elements : Elements) : List Dependency :=
  elements.toList.flatMap Element.declaredDeps

/-- Checks the request for the target. -/
def checkTarget (elements : Elements) (target : String) (variant : Option String) :
    Except LoadError Unit :=
  match variant, elements.find? target with
  | some variant, some element =>
    if (element.variant? variant).isNone then .error (.undeclaredVariant target variant none)
    else .ok ()
  | _, _ => .ok ()

/-- Checks the requests of the dependencies, in order. -/
def checkDeps (elements : Elements) (deps : List Dependency) : Except LoadError Unit :=
  match deps with
  | [] => .ok ()
  | dep :: rest =>
    match elements.undeclared? dep with
    | some variant => .error (.undeclaredVariant dep.name variant (some dep.place))
    | none => checkDeps elements rest

theorem undeclared?_eq_none_iff {elements : Elements} {dep : Dependency} :
    elements.undeclared? dep = none ↔ ∀ v element, dep.variant = some v →
      elements.find? dep.name = some element → (element.variant? v).isSome := by
  unfold undeclared?
  cases dep.variant with
  | none => simp
  | some v =>
    cases elements.find? dep.name with
    | none => simp
    | some element => cases h : element.variant? v <;> simp [h]

theorem checkDeps_eq_ok_iff {elements : Elements} {deps : List Dependency} :
    elements.checkDeps deps = .ok () ↔ ∀ dep ∈ deps, elements.undeclared? dep = none := by
  induction deps with
  | nil => simp [checkDeps]
  | cons dep rest ih =>
    rw [checkDeps]
    cases h : elements.undeclared? dep <;> simp [h, ih]

theorem checkTarget_eq_ok_iff {elements : Elements} {target : String} {variant : Option String} :
    elements.checkTarget target variant = .ok () ↔ ∀ v element, variant = some v →
      elements.find? target = some element → (element.variant? v).isSome := by
  unfold checkTarget
  cases variant with
  | none => simp
  | some v =>
    cases elements.find? target with
    | none => simp
    | some element => cases h : element.variant? v <;> simp [h]

/-- Checks every request: the one for the target, then those of the table in its order. -/
def checkRequests (elements : Elements) (target : String) (variant : Option String) :
    Except LoadError Unit := do
  elements.checkTarget target variant
  elements.checkDeps elements.declaredDeps

/-- The check passes if every request by name is for a variant that is declared. -/
theorem checkRequests_eq_ok_iff {elements : Elements} {target : String} {variant : Option String} :
    elements.checkRequests target variant = .ok () ↔
      (∀ v element, variant = some v → elements.find? target = some element →
        (element.variant? v).isSome) ∧
      ∀ dep ∈ elements.declaredDeps, ∀ v element, dep.variant = some v →
        elements.find? dep.name = some element → (element.variant? v).isSome := by
  have hdeps : elements.checkDeps elements.declaredDeps = .ok () ↔
      ∀ dep ∈ elements.declaredDeps, ∀ v element, dep.variant = some v →
        elements.find? dep.name = some element → (element.variant? v).isSome := by
    simp only [checkDeps_eq_ok_iff, undeclared?_eq_none_iff]
  rw [← checkTarget_eq_ok_iff, ← hdeps, checkRequests]
  cases elements.checkTarget target variant <;> simp [bind, Except.bind]

end BuildGraph.Elements
