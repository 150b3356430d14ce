import BuildGraph.Element.Declaration
import BuildGraph.Proofs.Document.Latest
import BuildGraph.Proofs.Resolved.Settings

/-!
# Kinds

An element has two kinds. The one that it is declared with is read before any layer is put onto its
document, and decides whether it is a stack. The one that a load reports is read when the overlays
and the data of the variant are on the document, and is the last one that is said
(`Element.HasKind`).
-/

namespace BuildGraph

namespace Architectures

/-- The overlays that go onto a document: that for the host, and what is then the one for the
target. -/
def overlays (archs : Architectures) (document : Node) : Except LoadError (List Node) := do
  let host ← overlay? document hostKey archs.host
  let target ← overlay? (← applyOverlay hostKey archs.host document) targetKey archs.target
  pure ((host.toList ++ target.toList).map Prod.snd)

end Architectures

theorem Node.data_of_takeItems {node rest : Node} {key : String} {items : List Node}
    (h : node.takeItems key = .ok (items, rest)) : rest = node.erase key := by
  simp only [takeItems, bind_eq_ok_iff, pure_eq_ok_iff, Prod.mk.injEq] at h
  obtain ⟨_, -, -, rfl⟩ := h
  rfl

theorem Dependency.data_of_take {scope : DependencyScope} {owner : String} {document data : Node}
    {deps : List Dependency} (h : take scope owner document = .ok (deps, data)) :
    data = document.erase listKey := by
  simp only [take, bind_eq_ok_iff, pure_eq_ok_iff, access_eq_ok_iff, Prod.mk.injEq] at h
  obtain ⟨⟨items, rest⟩, hitems, _, -, -, rfl⟩ := h
  exact Node.data_of_takeItems hitems

theorem Variant.data_of_take {archs : Architectures} {scope : DependencyScope} {owner : String}
    {document data : Node} {variants : List Variant}
    (h : take archs scope owner document = .ok (variants, data)) :
    data = document.erase listKey := by
  simp only [take, bind_eq_ok_iff, pure_eq_ok_iff, access_eq_ok_iff, Prod.mk.injEq] at h
  obtain ⟨⟨items, rest⟩, hitems, _, -, -, rfl⟩ := h
  exact Node.data_of_takeItems hitems

theorem Source.data_of_take {owner : String} {document data : Node} {sources : List Source}
    (h : take owner document = .ok (sources, data)) : data = document.erase listKey := by
  simp only [take, bind_eq_ok_iff, pure_eq_ok_iff, access_eq_ok_iff, Prod.mk.injEq] at h
  obtain ⟨⟨items, rest⟩, hitems, _, -, -, rfl⟩ := h
  exact Node.data_of_takeItems hitems

namespace Element

/-- What layers say of the kind. -/
def kindsIn (layers : List Node) : List Node :=
  layers.flatMap fun layer => Node.valuesIn kindKey layer.members

/-- The data of the variant that an element is in. -/
def variantLayer (e : Element) (variant : Option String) : List Node :=
  (variant.bind e.variant?).toList.map Variant.data

/-- What the overlays of a document and the data of a variant say of the kind, in the order in which
they go onto the document. -/
def laterKinds (archs : Architectures) (document : Node) (e : Element) (variant : Option String) :
    Except LoadError (List Node) := do
  pure (kindsIn ((← archs.overlays document) ++ e.variantLayer variant))

/-- Whether `kind` is the kind of an element in a variant after all layers, `document` being the one
that it is read from: what is said last, by the document or by one of the layers. -/
structure HasKind (archs : Architectures) (document : Node) (e : Element) (variant : Option String)
    (later : List Node) (kind : String) : Prop where
  declared : document.getString kindKey = .ok e.kind
  said : e.laterKinds archs document variant = .ok later
  last : ∃ node, ((document.get? kindKey).toList ++ later).getLast? = some node ∧
    node.asString? = some kind

variable {archs : Architectures} {document data : Node} {e : Element} {variant : Option String}
  {later values : List Node} {kind : String}

/-- An element that no layer makes a stack or none is reported as what it is treated as. -/
theorem HasKind.agrees (h : e.HasKind archs document variant later kind)
    (hlater : ∀ node ∈ later, node.asString? = some stackKind ↔ e.isStack = true) :
    kind = stackKind ↔ e.isStack = true := by
  obtain ⟨node, hlast, hkind⟩ := h.last
  have hsame : node.asString? = some stackKind ↔ kind = stackKind := by
    rw [hkind, Option.some.injEq]
  rw [← hsame]
  rcases List.mem_append.1 (List.mem_of_getLast? hlast) with hfirst | hnode
  · obtain ⟨found, hfound, hread⟩ := Node.get?_of_getString h.declared
    rw [hfound] at hfirst
    obtain rfl := List.mem_singleton.1 hfirst
    rw [hread, Option.some.injEq, isStack, beq_iff_eq]
  · exact hlater node hnode

theorem kindsIn_append (layers others : List Node) :
    kindsIn (layers ++ others) = kindsIn layers ++ kindsIn others :=
  List.flatMap_append

theorem latest_applyOverlay {key : String} {arch : Option String} {result : Node}
    (hkey : kindKey ≠ key) (h : document.Latest kindKey values)
    (happly : Architectures.applyOverlay key arch document = .ok result) :
    ∃ found, Architectures.overlay? document key arch = .ok found ∧
      result.Latest kindKey (values ++ kindsIn (found.toList.map Prod.snd)) := by
  simp only [Architectures.applyOverlay, bind_eq_ok_iff, access_eq_ok_iff] at happly
  obtain ⟨found, hfound, honto⟩ := happly
  refine ⟨found, hfound, ?_⟩
  cases found with
  | none =>
    obtain rfl := pure_eq_ok_iff.1 honto
    simpa [kindsIn] using h.erase hkey
  | some overlay => simpa [kindsIn] using (h.erase hkey).onto honto

theorem latest_ofDocument {scope : DependencyScope} {name filename : String}
    (h : ofDocument archs scope name filename document = .ok e) :
    document.getString kindKey = .ok e.kind ∧ ∃ overlays, archs.overlays document = .ok overlays ∧
      e.data.Latest kindKey ((document.get? kindKey).toList ++ kindsIn overlays) := by
  simp only [ofDocument, Architectures.apply, bind_eq_ok_iff, pure_eq_ok_iff, access_eq_ok_iff] at h
  obtain ⟨kind, hkind, overlaid, ⟨mid, hhost, htarget⟩, ⟨deps, undepended⟩, hdeps, ⟨variants, rest⟩,
    hvariants, rfl⟩ := h
  obtain rfl := Dependency.data_of_take hdeps
  obtain rfl := Variant.data_of_take hvariants
  have hfirst := Node.Latest.of_get? document kindKey
  obtain ⟨host, hfound, hmid⟩ := latest_applyOverlay (by decide) hfirst hhost
  obtain ⟨target, hfound', hoverlaid⟩ := latest_applyOverlay (by decide) hmid htarget
  refine ⟨hkind, (host.toList ++ target.toList).map Prod.snd, ?_, ?_⟩
  · simp only [Architectures.overlays, bind_eq_ok_iff, pure_eq_ok_iff, access_eq_ok_iff]
    exact ⟨host, hfound, mid, hhost, target, hfound', rfl⟩
  · rw [List.map_append, kindsIn_append, ← List.append_assoc]
    exact (hoverlaid.erase (by decide)).erase (by decide)

theorem latest_dataIn (h : e.data.Latest kindKey values) (hdata : e.dataIn variant = .ok data) :
    data.Latest kindKey (values ++ kindsIn (e.variantLayer variant)) := by
  rw [dataIn] at hdata
  rw [variantLayer]
  cases hfound : variant.bind e.variant? with
  | none =>
    rw [hfound] at hdata
    obtain rfl := Except.ok.inj hdata
    simpa [kindsIn] using h
  | some v =>
    rw [hfound] at hdata
    simpa [kindsIn] using h.onto hdata

/-- The kind that is read off the document of an element in a variant is the one that was said last.
-/
theorem hasKind_of_settings {scope : DependencyScope} {name owner filename : String}
    {settings : Settings} (h : ofDocument archs scope name filename document = .ok e)
    (hdata : e.dataIn variant = .ok data) (hsettings : Settings.ReadFrom owner data settings) :
    ∃ later, e.HasKind archs document variant later settings.kind := by
  obtain ⟨hdeclared, overlays, hoverlays, hlatest⟩ := latest_ofDocument h
  obtain ⟨sources, rest, htake, hread⟩ := hsettings
  simp only [Settings.read, bind_eq_ok_iff, pure_eq_ok_iff] at hread
  obtain ⟨kind, hkind, _, -, _, -, _, -, _, -, _, -, rfl⟩ := hread
  rw [Source.data_of_take htake] at hkind
  obtain ⟨node, hlast, hnode⟩ :=
    ((latest_dataIn hlatest hdata).erase (by decide)).of_getString hkind
  refine ⟨kindsIn (overlays ++ e.variantLayer variant), hdeclared, ?_, node, ?_, hnode⟩
  · simp only [laterKinds, bind_eq_ok_iff, pure_eq_ok_iff]
    exact ⟨overlays, hoverlays, rfl⟩
  · rw [kindsIn_append, ← List.append_assoc]
    exact hlast

end Element

end BuildGraph
