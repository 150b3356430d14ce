import BuildGraph.Proofs.Variant.Commit
import Mathlib.Data.List.Basic

/-!
# The latest value of a key

A scalar is never merged with anything: one that a document holds after layers were put onto it
stands like that in the last layer that has a value under its key, or else in the document.
`Node.Latest` says so of a document and the values that it was given under a key, one after the
other.
-/

namespace BuildGraph.Node

/-- The values of a key among members. -/
def valuesIn (key : String) (members : List (String × Node)) : List Node :=
  (members.filter fun member => member.1 == key).map Prod.snd

/-- Whether a scalar that stands in a document under a key is the last of the values. -/
def Latest (document : Node) (key : String) (values : List Node) : Prop :=
  ∀ node, document.get? key = some node → node.isScalar = true → values.getLast? = some node

variable {policy : CompositePolicy} {typesafe : Bool} {path : List String} {key : String}

theorem get?_of_lookup {document member : Node} {expected : ValueType}
    (h : document.lookup key expected = .ok (some member)) : document.get? key = some member := by
  rw [lookup] at h
  split at h
  · cases h
  · next found hfound =>
    split at h
    · cases h
    · obtain ⟨same, hsame, heq⟩ := map_eq_ok_iff.1 h
      obtain rfl := Option.some.inj heq
      rw [expectType] at hsame
      split at hsame
      · exact hfound.trans (congrArg some (Except.ok.inj hsame))
      · cases hsame

/-- What is read as a text under a key stands there. -/
theorem get?_of_getString {document : Node} {text : String}
    (h : document.getString key = .ok text) :
    ∃ node, document.get? key = some node ∧ node.asString? = some text := by
  simp only [getString, getString?, bind_eq_ok_iff, pure_eq_ok_iff] at h
  obtain ⟨_, ⟨found, hfound, rfl⟩, hrequired⟩ := h
  cases found with
  | none => cases hrequired
  | some member =>
    refine ⟨member, get?_of_lookup hfound, ?_⟩
    rw [Option.bind_some] at hrequired
    cases hread : member.asString? with
    | none =>
      rw [hread] at hrequired
      cases hrequired
    | some read =>
      rw [hread] at hrequired
      exact congrArg some (Except.ok.inj hrequired)

theorem eq_of_combine {source target result : Node}
    (h : policy.combine typesafe path source target = .ok result)
    (hscalar : result.isScalar = true) : result = source := by
  unfold CompositePolicy.combine at h
  split at h
  · cases h
  · split at h
    · cases h
    · split at h
      -- sequences that are appended are no scalar
      · cases h
        cases hscalar
      · exact (Except.ok.inj h).symm

/-- A value that comes out as a scalar is the one that was put in. -/
theorem eq_of_compositeValue {source target result : Node}
    (h : compositeValue policy typesafe source path target = ⟨result, none⟩)
    (hscalar : result.isScalar = true) : result = source := by
  unfold compositeValue at h
  split at h
  · -- mappings are merged to a mapping
    rw [← (Composed.mk.inj h).1] at hscalar
    cases hscalar
  · split at h
    · next node hnode =>
      obtain rfl := (Composed.mk.inj h).1
      exact eq_of_combine hnode hscalar
    · cases (Composed.mk.inj h).2

/-- One member after the other is put where its key stands. -/
theorem compositeMembers_cons {k : String} {value : Node}
    {rest members merged : List (String × Node)}
    (h : compositeMembers policy typesafe ((k, value) :: rest) path members = ⟨merged, none⟩) :
    ∃ put, (put.isScalar = true → put = value) ∧
      compositeMembers policy typesafe rest path (Keyed.insert k put members) = ⟨merged, none⟩ := by
  rw [compositeMembers] at h
  split at h
  · exact ⟨value, fun _ => rfl, h⟩
  · next existing _ =>
    dsimp only at h
    split at h
    · cases (Composed.mk.inj h).2
    · next hnone =>
      have hmerged : compositeValue policy typesafe value (path ++ [k]) existing =
          ⟨(compositeValue policy typesafe value (path ++ [k]) existing).result, none⟩ :=
        congrArg (Composed.mk _) hnone
      exact ⟨_, eq_of_compositeValue hmerged, h⟩

theorem compositeMembers_latest {sources members merged : List (String × Node)}
    (h : compositeMembers policy typesafe sources path members = ⟨merged, none⟩) {node : Node}
    (hnode : merged.lookup key = some node) (hscalar : node.isScalar = true) :
    ((members.lookup key).toList ++ valuesIn key sources).getLast? = some node := by
  induction sources generalizing members with
  | nil =>
    rw [compositeMembers] at h
    obtain rfl := (Composed.mk.inj h).1
    simp [hnode, valuesIn]
  | cons first rest ih =>
    obtain ⟨k, value⟩ := first
    obtain ⟨put, hput, hrest⟩ := compositeMembers_cons h
    have hlast := ih hrest
    rw [Keyed.lookup_insert] at hlast
    by_cases hk : key = k
    · subst hk
      have hvalues : valuesIn key ((key, value) :: rest) = value :: valuesIn key rest := by
        simp [valuesIn]
      rw [if_pos rfl, Option.toList_some, List.singleton_append, List.getLast?_cons] at hlast
      rw [hvalues, List.getLast?_append, List.getLast?_cons, Option.some_or]
      cases hend : (valuesIn key rest).getLast? with
      | none =>
        rw [hend] at hlast
        obtain rfl := Option.some.inj hlast
        exact congrArg some (hput hscalar).symm
      | some last =>
        rw [hend] at hlast
        exact hlast
    · have hvalues : valuesIn key ((k, value) :: rest) = valuesIn key rest := by
        rw [valuesIn, List.filter_cons_of_neg (by simpa using Ne.symm hk), valuesIn]
      rw [if_neg hk] at hlast
      rwa [hvalues]

/-- A key that neither side has is not made up. -/
theorem lookup_eq_none_of_compositeMembers {sources members merged : List (String × Node)}
    (h : compositeMembers policy typesafe sources path members = ⟨merged, none⟩)
    (hsources : sources.lookup key = none) (hmembers : members.lookup key = none) :
    merged.lookup key = none := by
  induction sources generalizing members with
  | nil =>
    rw [compositeMembers] at h
    exact (Composed.mk.inj h).1 ▸ hmembers
  | cons first rest ih =>
    obtain ⟨k, value⟩ := first
    obtain ⟨put, -, hrest⟩ := compositeMembers_cons h
    rw [Keyed.lookup_eq_none_iff] at hsources
    obtain ⟨hk, hkeys⟩ := not_or.1 (mt List.mem_cons.2 hsources)
    refine ih hrest (Keyed.lookup_eq_none_iff.2 hkeys) ?_
    rw [Keyed.lookup_insert, if_neg hk, hmembers]

/-- A layer that is put onto a document merges the members of the two. -/
theorem members_of_onto {layer : Layer} {place : Provenance} {data document result : Node}
    (h : layer.onto place data document = .ok result) :
    ∃ sources q members p merged, data = .mapping sources q ∧ document = .mapping members p ∧
      result = .mapping merged p ∧
      compositeMembers layer.policy layer.isTypesafe sources [] members = ⟨merged, none⟩ := by
  have hcomposed := Layer.onto_eq_ok_iff.1 h
  rw [composite] at hcomposed
  split at hcomposed
  · next hmappings =>
    obtain ⟨hdata, hdocument⟩ := Bool.and_eq_true_iff.1 hmappings
    obtain ⟨sources, q, rfl⟩ := exists_of_isMapping hdata
    obtain ⟨members, p, rfl⟩ := exists_of_isMapping hdocument
    rw [compositeValue] at hcomposed
    obtain ⟨rfl, hnone⟩ := Composed.mk.inj hcomposed
    exact ⟨sources, q, members, p, _, rfl, rfl, rfl, congrArg (Composed.mk _) hnone⟩
  · cases (Composed.mk.inj hcomposed).2

/-- A key that neither the layer nor the document has is not made up. -/
theorem get?_eq_none_of_onto {layer : Layer} {place : Provenance} {data document result : Node}
    (h : layer.onto place data document = .ok result) (hdata : data.get? key = none)
    (hdocument : document.get? key = none) : result.get? key = none := by
  obtain ⟨sources, q, members, p, merged, rfl, rfl, rfl, hmembers⟩ := members_of_onto h
  exact lookup_eq_none_of_compositeMembers hmembers hdata hdocument

namespace Latest

variable {document result : Node} {values : List Node}

theorem of_get? (document : Node) (key : String) :
    document.Latest key (document.get? key).toList := by
  intro node hnode _
  rw [hnode]
  rfl

theorem erase {other : String} (hne : key ≠ other) (h : document.Latest key values) :
    (document.erase other).Latest key values :=
  fun node hnode => h node (get?_erase_of_ne hne document ▸ hnode)

/-- A layer adds the values that it has under the key. -/
theorem onto {layer : Layer} {place : Provenance} {data : Node} (h : document.Latest key values)
    (honto : layer.onto place data document = .ok result) :
    result.Latest key (values ++ valuesIn key data.members) := by
  intro node hnode hscalar
  obtain ⟨sources, q, members, p, merged, rfl, rfl, rfl, hmembers⟩ := members_of_onto honto
  have hlast := compositeMembers_latest hmembers hnode hscalar
  rw [List.getLast?_append] at hlast ⊢
  change (valuesIn key sources).getLast?.or _ = _
  cases hend : (valuesIn key sources).getLast? with
  | some last =>
    rw [hend, Option.some_or] at hlast
    rw [Option.some_or, hlast]
  | none =>
    -- the layer says nothing under the key, so the value is the one of the document
    rw [hend, Option.none_or] at hlast
    rw [Option.none_or]
    refine h node ?_ hscalar
    have hlist : ∀ found : Option Node, found.toList.getLast? = found := by
      intro found
      cases found <;> rfl
    exact (hlist _).symm.trans hlast

/-- A text that is read under the key is that of the last value. -/
theorem of_getString (h : document.Latest key values) {text : String}
    (htext : document.getString key = .ok text) :
    ∃ node, values.getLast? = some node ∧ node.asString? = some text := by
  obtain ⟨node, hnode, hread⟩ := get?_of_getString htext
  refine ⟨node, h node hnode ?_, hread⟩
  cases node with
  | scalar => rfl
  | sequence => cases hread
  | mapping => cases hread

end Latest

end BuildGraph.Node
