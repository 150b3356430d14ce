import BuildGraph.Element.Basic

/-!
# Variant conflicts

Why an element cannot be configured in a variant. While other candidates are left, a conflict only
rejects the one at hand.
-/

namespace BuildGraph

/-- A conflict found while configuring a candidate. -/
inductive VariantError
  /-- The element `owner` asks for `element` in the variant `requested`, at `place`, but the candidate
  has another one, or none. -/
  | disagreement (element owner requested : String) (candidate : Option String) (place : Provenance)
  /-- An element depends on itself. -/
  | circular (element : String) (place : Provenance)
  /-- A dependency names an element that was never loaded. -/
  | missing (dependency : Dependency)
  deriving DecidableEq, Repr

namespace VariantError

/-- The text of a conflict. -/
def message : VariantError → String
  | disagreement element owner requested candidate place =>
    place.text ++ ": Variant disagreement occurred: '" ++ owner ++ "' requires variant '" ++
      requested ++ "' of '" ++ element ++ "', " ++
      match candidate with
      | some candidate => "which conflicts with variant '" ++ candidate ++ "'"
      | none => "which conflicts with its default variant"
  | circular element place =>
    place.text ++ ": Circular dependency detected for element '" ++ element ++ "'"
  | missing dependency =>
    dependency.place.text ++ ": Dependency '" ++ dependency.name ++ "' was never loaded"

end VariantError

end BuildGraph
