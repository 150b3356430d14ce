import BuildGraph.Error

/-!
# Layers

A layer is a mapping that is composited onto a document: the overlay of an architecture, an included
fragment, or the data of a variant. A fragment may only add to a document. Overlays and variants may
also append to its lists and replace its values, as long as no type changes.
-/

namespace BuildGraph

/-- The value of a composition that came to its end, or what stopped it. -/
def Composed.outcome {α : Type} (c : Composed α) : Except CompositeError α :=
  match c.error with
  | some e => .error e
  | none => .ok c.result

theorem Composed.outcome_eq_ok_iff {α : Type} {c : Composed α} {a : α} :
    c.outcome = .ok a ↔ c = ⟨a, none⟩ := by
  obtain ⟨result, error⟩ := c
  cases error <;> simp [outcome]

namespace Layer

/-- How a layer combines values that it shares with the document. -/
def policy : Layer → CompositePolicy
  | fragment _ => .strict
  | architecture _ | variant _ => .arrayAppend

/-- Whether a layer must keep the types of the document. -/
def isTypesafe : Layer → Bool
  | fragment _ => false
  | architecture _ | variant _ => true

/-- Composites the data of a layer, declared at `place`, onto a document. -/
def onto (layer : Layer) (place : Provenance) (data document : Node) : Except LoadError Node :=
  (document.composite data layer.policy layer.isTypesafe).outcome.mapError
    (.layer layer place)

end Layer

end BuildGraph
