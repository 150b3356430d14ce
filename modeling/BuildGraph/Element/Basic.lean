import BuildGraph.Document.Node
import BuildGraph.Roster

/-!
# Elements

An element is one element document after includes and architecture overlays, with its dependency and
variant declarations lifted out of the document. Until a variant is chosen its resolved dependencies
are empty. `Element.depsFor` tells which dependencies are in effect in a variant.
-/

namespace BuildGraph

/-- What a dependency is needed for. -/
inductive DependencyType
  | build
  | runtime
  deriving DecidableEq, Repr

namespace DependencyType

/-- How a dependency type is written. -/
def name : DependencyType → String
  | build => "build"
  | runtime => "runtime"

/-- The dependency type that a text names. -/
def ofName? : String → Option DependencyType
  | "build" => some build
  | "runtime" => some runtime
  | _ => none

/-- What is said about a text that names no dependency type. -/
def unknownMessage (text : String) : String :=
  "Dependency type '" ++ text ++ "' is not 'build' or 'runtime'"

end DependencyType

/-- One dependency declaration. -/
structure Dependency where
  /-- The element that declares it. -/
  owner : String
  /-- The element depended on. -/
  name : String
  /-- The variant asked for by the declaration. -/
  variant : Option String
  /-- The file of the element depended on; unset between the embeds of a stack. -/
  filename : Option String
  /-- What it is needed for; unset means both building and running. -/
  type : Option DependencyType
  /-- Where it is declared. -/
  place : Provenance
  deriving DecidableEq, Repr

instance : Named Dependency := ⟨Dependency.name⟩

namespace Dependency

/-- Whether the dependency is needed to build. -/
def isBuild (dep : Dependency) : Bool := dep.type != some .runtime

/-- Whether the dependency is needed to run. -/
def isRuntime (dep : Dependency) : Bool := dep.type != some .build

/-- Whether the dependency is needed to run and not to build. -/
def isRuntimeOnly (dep : Dependency) : Bool := dep.type == some .runtime

end Dependency

/-- One alternative configuration of an element. -/
structure Variant where
  name : String
  /-- Composited onto the document of the element when the variant is chosen. -/
  data : Node
  /-- Dependencies in effect when the variant is chosen. -/
  deps : List Dependency
  /-- Where its name is declared. -/
  place : Provenance
  deriving DecidableEq

instance : Named Variant := ⟨Variant.name⟩

/-- One element, loaded from its file or synthesized from a stack. -/
structure Element where
  name : String
  /-- The file it is declared in. -/
  filename : String
  kind : String
  /-- The document without the declarations that were lifted out of it. -/
  data : Node
  /-- Dependencies in effect whatever the variant. -/
  baseDeps : List Dependency
  variants : List Variant
  /-- The chosen variant, once one is chosen. -/
  variant : Option String := none
  /-- The resolved dependencies, once a variant is chosen. -/
  deps : List Dependency := []
  deriving DecidableEq

instance : Named Element := ⟨Element.name⟩

/-- The elements known to a load, by name. -/
abbrev Elements := Roster Element

namespace Element

/-- The kind of elements that group others. -/
def stackKind : String := "stack"

/-- Whether the element is a stack. -/
def isStack (e : Element) : Bool := e.kind == stackKind

/-- The variant of a name. -/
def variant? (e : Element) (name : String) : Option Variant := Named.find? e.variants name

/-- The dependencies in effect in a variant. A dependency of the variant takes the place of a base
dependency on the same element. Without a declared variant only the base dependencies are in
effect. -/
def depsFor (e : Element) (variant : Option String) : List Dependency :=
  match variant.bind e.variant? with
  | some v => v.deps.foldl (fun deps dep => Named.put dep deps) e.baseDeps
  | none => e.baseDeps

/-- Every dependency declaration, whatever the variant. -/
def declaredDeps (e : Element) : List Dependency :=
  e.baseDeps ++ e.variants.flatMap Variant.deps

/-- Whether an element can be in a variant: in none exactly if it declares none. -/
def Declares (e : Element) : Option String → Prop
  | none => e.variants = []
  | some v => (e.variant? v).isSome

instance (e : Element) : (variant : Option String) → Decidable (e.Declares variant)
  | none => decidable_of_iff (e.variants.isEmpty = true) List.isEmpty_iff
  | some v => inferInstanceAs (Decidable ((e.variant? v).isSome = true))

theorem mem_foldl_put {dep : Dependency} {new deps : List Dependency}
    (h : dep ∈ new.foldl (fun deps dep => Named.put dep deps) deps) : dep ∈ deps ∨ dep ∈ new := by
  induction new generalizing deps with
  | nil => exact .inl h
  | cons d rest ih =>
    rcases ih h with hput | hrest
    · rcases Named.mem_of_mem_put hput with rfl | hdeps
      · exact .inr List.mem_cons_self
      · exact .inl hdeps
    · exact .inr (List.mem_cons_of_mem _ hrest)

/-- What is in effect is declared. -/
theorem mem_declaredDeps_of_mem_depsFor {e : Element} {variant : Option String} {dep : Dependency}
    (h : dep ∈ e.depsFor variant) : dep ∈ e.declaredDeps := by
  rw [depsFor] at h
  split at h
  · next v hv =>
    obtain ⟨name, -, hname⟩ := Option.bind_eq_some_iff.1 hv
    rcases mem_foldl_put h with hbase | hown
    · exact List.mem_append_left _ hbase
    · exact List.mem_append_right _ (List.mem_flatMap.2 ⟨v, Named.mem_of_find? hname, hown⟩)
  · exact List.mem_append_left _ h

theorem Declares.eq_none_iff {e : Element} {variant : Option String} (h : e.Declares variant) :
    variant = none ↔ e.variants = [] := by
  cases variant with
  | none => simpa [Declares] using h
  | some v =>
    simp only [reduceCtorEq, false_iff]
    intro hnil
    simp [Declares, variant?, Named.find?, hnil] at h

end Element

end BuildGraph
