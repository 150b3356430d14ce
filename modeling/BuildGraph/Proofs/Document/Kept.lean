import BuildGraph.Proofs.Document.Latest

/-!
# What operations on documents keep

Documents are taken apart and put together again: nodes are read out of them, members come in and go
out, and sequences are made of items. A property that all of this keeps is one of whatever is composed
of documents that have it, also where the composition stops (`Node.IsKept.composite`).
-/

namespace BuildGraph

theorem mem_of_lookup {κ α : Type} [BEq κ] [LawfulBEq κ] {key : κ} {value : α}
    {entries : List (κ × α)} (h : entries.lookup key = some value) : (key, value) ∈ entries := by
  obtain ⟨before, after, rfl, -⟩ := List.lookup_eq_some_iff.1 h
  exact List.mem_append_right _ List.mem_cons_self

namespace Node

/-- A property that the parts of a node have with it, that a sequence has if its items do, and that a
mapping keeps when a value with the property is put into it or a member is taken out. -/
structure IsKept (q : Node → Prop) : Prop where
  item : ∀ {items place item}, q (.sequence items place) → item ∈ items → q item
  sequence : ∀ {items}, (∀ item ∈ items, q item) → ∀ place, q (.sequence items place)
  member : ∀ {members place key value}, q (.mapping members place) → (key, value) ∈ members → q value
  empty : ∀ place, q (.emptyMapping place)
  put : ∀ {members place value}, q (.mapping members place) → q value → ∀ key,
    q (.mapping (Keyed.insert key value members) place)
  remove : ∀ {members place}, q (.mapping members place) → ∀ key,
    q (.mapping (Keyed.erase key members) place)

namespace IsKept

variable {q : Node → Prop} {policy : CompositePolicy} {typesafe : Bool}
  {node document member : Node} {key : String}

theorem append (hq : IsKept q) {items extra : List Node} {place other : Provenance}
    (hitems : q (.sequence items place)) (hextra : q (.sequence extra other)) :
    q (.sequence (items ++ extra) place) :=
  hq.sequence (List.forall_mem_append.2 ⟨fun _ => hq.item hitems, fun _ => hq.item hextra⟩) place

theorem items (hq : IsKept q) (h : q node) : ∀ item ∈ node.items, q item := by
  cases node with
  | sequence items place => exact fun _ => hq.item h
  | scalar => exact List.forall_mem_nil _
  | mapping => exact List.forall_mem_nil _

theorem get? (hq : IsKept q) (h : q document) (hmember : document.get? key = some member) :
    q member := by
  cases document with
  | mapping members place => exact hq.member h (mem_of_lookup hmember)
  | scalar => cases hmember
  | sequence => cases hmember

theorem lookup (hq : IsKept q) {expected : ValueType} (h : q document)
    (hmember : document.lookup key expected = .ok (some member)) : q member :=
  hq.get? h (get?_of_lookup hmember)

theorem erase (hq : IsKept q) (h : q document) (key : String) : q (document.erase key) := by
  cases document with
  | mapping members place => exact hq.remove h key
  | scalar => exact h
  | sequence => exact h

theorem insert (hq : IsKept q) (h : q document) (hmember : q member) (key : String) :
    q (document.insert key member) := by
  cases document with
  | mapping members place => exact hq.put h hmember key
  | scalar => exact h
  | sequence => exact h

theorem combine (hq : IsKept q) {path : List String} {source target result : Node}
    (h : policy.combine typesafe path source target = .ok result) (hsource : q source)
    (htarget : q target) : q result := by
  unfold CompositePolicy.combine at h
  split at h
  · cases h
  · split at h
    · cases h
    · split at h
      · exact Except.ok.inj h ▸ hq.append htarget hsource
      · exact Except.ok.inj h ▸ hsource

theorem compositeValue (hq : IsKept q) (policy : CompositePolicy) (typesafe : Bool) (source : Node)
    (path : List String) (target : Node) : q source → q target →
    q (compositeValue policy typesafe source path target).result := by
  refine compositeValue.induct policy typesafe
    (fun source path target => q source → q target →
      q (Node.compositeValue policy typesafe source path target).result)
    (fun sources path members => ∀ p, (∀ member ∈ sources, q member.2) → q (.mapping members p) →
      q (.mapping (compositeMembers policy typesafe sources path members).result p))
    ?_ ?_ ?_ ?_ ?_ ?_ ?_ source path target
  · -- two mappings
    intro sources place path members p ih hsource htarget
    rw [Node.compositeValue]
    exact ih p (fun _ hmember => hq.member hsource hmember) htarget
  · -- combined
    intro source path target hother node hnode hsource htarget
    rw [Node.compositeValue, hnode]
    · exact hq.combine hnode hsource htarget
    · exact hother
  · -- refused
    intro source path target hother e he _ htarget
    rw [Node.compositeValue, he]
    · exact htarget
    · exact hother
  · intro path members p _ hmembers
    rw [compositeMembers]
    exact hmembers
  · -- a new key
    intro key value rest path members hnew ih p hsources hmembers
    obtain ⟨hvalue, hrest⟩ := List.forall_mem_cons.1 hsources
    rw [compositeMembers, hnew]
    exact ih p hrest (hq.put hmembers hvalue key)
  · -- a key whose values do not go together
    intro key value rest path members existing hfound merged e he ih p hsources hmembers
    have hvalue : q value := hsources _ List.mem_cons_self
    have hexisting : q existing := hq.member hmembers (mem_of_lookup hfound)
    rw [compositeMembers, hfound]
    simp only [merged] at he
    simp only [he]
    exact hq.put hmembers (ih hvalue hexisting) key
  · -- a key whose values go together
    intro key value rest path members existing hfound merged put hnone ih ihRest p hsources hmembers
    obtain ⟨hvalue, hrest⟩ := List.forall_mem_cons.1 hsources
    have hexisting : q existing := hq.member hmembers (mem_of_lookup hfound)
    rw [compositeMembers, hfound]
    simp only [merged] at hnone
    simp only [hnone]
    exact ihRest p hrest (hq.put hmembers (ih hvalue hexisting) key)

/-- What a composition leaves behind has the property of the two documents, whether it comes to its end
or not. -/
theorem composite (hq : IsKept q) {document source : Node} (hdocument : q document)
    (hsource : q source) : q (document.composite source policy typesafe).result := by
  rw [Node.composite]
  split
  · exact hq.compositeValue policy typesafe source [] document hsource hdocument
  · exact hdocument

theorem onto (hq : IsKept q) {layer : Layer} {place : Provenance} {data document result : Node}
    (hdocument : q document) (hdata : q data) (h : layer.onto place data document = .ok result) :
    q result := by
  have hcomposed : q (document.composite data layer.policy layer.isTypesafe).result :=
    hq.composite hdocument hdata
  rw [Layer.onto_eq_ok_iff.1 h] at hcomposed
  exact hcomposed

end IsKept

end Node

end BuildGraph
