import BuildGraph.Proofs.Document.Kept

/-!
# The scalars of a document

No operation on documents makes up a scalar: what comes out of one is composed of the documents that
went in. A property that all scalars of these have, each with its place, is one of all scalars of the
result.
-/

namespace BuildGraph

/-- Whether a scalar with a place stands somewhere in a document. -/
inductive Node.HasScalar (s : Scalar) (p : Provenance) : Node → Prop
  | here : HasScalar s p (.scalar s p)
  | item {items : List Node} {place : Provenance} {node : Node} :
    node ∈ items → HasScalar s p node → HasScalar s p (.sequence items place)
  | member {members : List (String × Node)} {place : Provenance} {key : String} {node : Node} :
    (key, node) ∈ members → HasScalar s p node → HasScalar s p (.mapping members place)

/-- Whether all scalars of a document have a property. -/
def Node.AllScalars (q : Scalar → Provenance → Prop) (node : Node) : Prop :=
  ∀ s p, node.HasScalar s p → q s p

/-- Whether all scalars of the values of members have a property. -/
def MembersHave (q : Scalar → Provenance → Prop) (members : List (String × Node)) : Prop :=
  ∀ member ∈ members, member.2.AllScalars q

theorem MembersHave.insert {q : Scalar → Provenance → Prop} {members : List (String × Node)}
    (h : MembersHave q members) {member : Node} (hmember : member.AllScalars q) (key : String) :
    MembersHave q (Keyed.insert key member members) := by
  intro other hother
  rcases Keyed.mem_of_mem_insert hother with hnew | hold
  · exact hnew ▸ hmember
  · exact h other hold

namespace Node

variable {q : Scalar → Provenance → Prop} {place : Provenance}

theorem allScalars_scalar {s : Scalar} (h : q s place) : AllScalars q (.scalar s place) := by
  intro t p ht
  cases ht
  exact h

theorem allScalars_sequence_iff {items : List Node} :
    AllScalars q (.sequence items place) ↔ ∀ item ∈ items, item.AllScalars q := by
  constructor
  · exact fun h item hitem s p hs => h s p (.item hitem hs)
  · intro h s p hs
    cases hs with
    | item hitem hs => exact h _ hitem s p hs

theorem allScalars_mapping_iff {members : List (String × Node)} :
    AllScalars q (.mapping members place) ↔ MembersHave q members := by
  constructor
  · exact fun h member hmember s p hs => h s p (.member hmember hs)
  · intro h s p hs
    cases hs with
    | member hmember hs => exact h _ hmember s p hs

theorem isKept_allScalars (q : Scalar → Provenance → Prop) : IsKept (AllScalars q) where
  item hitems := allScalars_sequence_iff.1 hitems _
  sequence hitems _ := allScalars_sequence_iff.2 hitems
  member hmembers := allScalars_mapping_iff.1 hmembers _
  empty _ := allScalars_mapping_iff.2 (List.forall_mem_nil _)
  put hmembers hvalue key :=
    allScalars_mapping_iff.2 ((allScalars_mapping_iff.1 hmembers).insert hvalue key)
  remove hmembers key := allScalars_mapping_iff.2 fun _ hmember =>
    allScalars_mapping_iff.1 hmembers _ ((Keyed.erase_sublist key _).subset hmember)

end Node

/-- Whether a scalar is written in a file. -/
def Scalar.IsIn (file : String) (_ : Scalar) (p : Provenance) : Prop :=
  p.file = file

end BuildGraph
