import BuildGraph.Proofs.Document.Distinct
import BuildGraph.Proofs.Element.Kept
import BuildGraph.Proofs.Project.Permutation

/-!
# Directives in the data of an element

A document directs how it is read under some keys, and each of these is taken out when it has been
followed. The overlays of the architectures go onto the document after some of the keys were taken out
of it, and may bring them back. These stay in the data of the element, and nothing follows them
(`Element.ofDocument_directives`).
-/

namespace BuildGraph

namespace Node

variable {layer : Layer} {place : Provenance} {data document result : Node}

/-- A layer adds its keys to those of the document. -/
theorem hasKey_onto (hdata : data.HasDistinctKeys)
    (h : layer.onto place data document = .ok result) (key : String) :
    result.hasKey key = true ↔ document.hasKey key = true ∨ data.hasKey key = true := by
  obtain ⟨sources, q, members, p, merged, rfl, rfl, rfl, hmembers⟩ := members_of_onto h
  simp only [hasKey, get?, Node.members, Keyed.lookup_isSome_iff]
  rw [(compositeMembers_spec hdata.1 hmembers).1, mem_append_unseen]

theorem hasKey_erase (h : document.HasDistinctKeys) (key other : String) :
    (document.erase other).hasKey key = true ↔ key ≠ other ∧ document.hasKey key = true := by
  by_cases hkey : key = other
  · subst hkey
    rw [hasKey, get?_erase_self h]
    simp
  · rw [hasKey, get?_erase_of_ne hkey, hasKey]
    exact (and_iff_right hkey).symm

end Node

namespace Include

/-- A document whose includes were processed names none any more. -/
theorem of_processAll {files : Files} {originals documents : List Node} {done : Fragments}
    {document : Node} (h : processAll files originals [] = .ok (documents, done))
    (hkeys : ∀ original ∈ originals, original.HasDistinctKeys) (hdocument : document ∈ documents) :
    document.HasDistinctKeys ∧ document.hasKey key = false := by
  obtain ⟨hall, -⟩ := processAll_processes h sound_nil
  obtain ⟨original, horiginal, named, -, hsplices⟩ := exists_of_forall₂_right hall hdocument
  have hdistinct := hkeys original horiginal
  have hnone := hsplices.get?_key (Node.get?_erase_self hdistinct key)
  exact ⟨hsplices.hasDistinctKeys (hdistinct.erase key), by rw [Node.hasKey, hnone, Option.isSome_none]⟩

end Include

namespace Architectures

variable {archs : Architectures} {arch : Option String} {document result : Node} {key : String}
  {found : Option (String × Node)}

/-- The overlays for the host and for the target that are put onto a document. -/
structure Overlays (archs : Architectures) (document : Node) (host target : Option (String × Node)) :
    Prop where
  host : overlay? document hostKey archs.host = .ok host
  target : ∃ overlaid, applyOverlay hostKey archs.host document = .ok overlaid ∧
    overlay? overlaid targetKey archs.target = .ok target

/-- An overlay is put onto a document that the overlays were taken out of. -/
theorem hasKey_applyOverlay (hdocument : document.HasDistinctKeys)
    (h : applyOverlay key arch document = .ok result) :
    ∃ found, overlay? document key arch = .ok found ∧ result.HasDistinctKeys ∧
      ∀ other, result.hasKey other = true ↔ (other ≠ key ∧ document.hasKey other = true) ∨
        ∃ overlay ∈ found, overlay.2.hasKey other = true := by
  simp only [applyOverlay, bind_eq_ok_iff, access_eq_ok_iff] at h
  obtain ⟨found, hfound, honto⟩ := h
  refine ⟨found, hfound, ?_⟩
  cases found with
  | none =>
    obtain rfl := pure_eq_ok_iff.1 honto
    refine ⟨hdocument.erase key, fun other => ?_⟩
    rw [Node.hasKey_erase hdocument]
    simp
  | some overlay =>
    have hoverlay := Node.isKept_hasDistinctKeys.overlay? hdocument hfound overlay rfl
    refine ⟨Node.isKept_hasDistinctKeys.onto (hdocument.erase key) hoverlay honto, fun other => ?_⟩
    rw [Node.hasKey_onto hoverlay honto, Node.hasKey_erase hdocument]
    simp

end Architectures

namespace Element

open Architectures (hostKey targetKey)

/-- The keys that a document directs under how it is read. -/
def directiveKeys : List String :=
  [Include.key, hostKey, targetKey, Dependency.listKey, Variant.listKey]

/-- Whether an overlay brings a key back that is taken out of the document before. -/
def BringsBack (host target : Option (String × Node)) (key : String) : Prop :=
  (key ∈ [Include.key, hostKey] ∧ ∃ overlay ∈ host, overlay.2.hasKey key = true) ∨
    key ∈ [Include.key, hostKey, targetKey] ∧ ∃ overlay ∈ target, overlay.2.hasKey key = true

variable {archs : Architectures} {scope : DependencyScope} {name filename : String}
  {document : Node} {e : Element}

/-- The keys of the data of an element, read off the document and its overlays. -/
theorem hasKey_ofDocument (hdocument : document.HasDistinctKeys)
    (h : ofDocument archs scope name filename document = .ok e) :
    ∃ host target, archs.Overlays document host target ∧ ∀ key,
      e.data.hasKey key = true ↔ key ≠ Variant.listKey ∧ key ≠ Dependency.listKey ∧
        ((key ≠ targetKey ∧ ((key ≠ hostKey ∧ document.hasKey key = true) ∨
          ∃ overlay ∈ host, overlay.2.hasKey key = true)) ∨
          ∃ overlay ∈ target, overlay.2.hasKey key = true) := by
  simp only [ofDocument, Architectures.apply, bind_eq_ok_iff, pure_eq_ok_iff, access_eq_ok_iff] at h
  obtain ⟨_, -, overlaid, ⟨mid, hhost, htarget⟩, ⟨_, undepended⟩, hdeps, ⟨_, rest⟩, hvariants, rfl⟩ := h
  obtain rfl := Dependency.data_of_take hdeps
  obtain rfl := Variant.data_of_take hvariants
  obtain ⟨host, hfound, hmid, hmidKeys⟩ := Architectures.hasKey_applyOverlay hdocument hhost
  obtain ⟨target, hfound', hoverlaid, hkeys⟩ := Architectures.hasKey_applyOverlay hmid htarget
  refine ⟨host, target, ⟨hfound, mid, hhost, hfound'⟩, fun key => ?_⟩
  rw [Node.hasKey_erase (hoverlaid.erase _), Node.hasKey_erase hoverlaid, hkeys, hmidKeys]

/-- The overlays alone decide which of the keys that direct how a document is read stay in the data of
the element: those that an overlay has, if the key was taken out of the document before the overlay was
put onto it. Dependencies and variants are taken out after the overlays, so they never stay. -/
theorem ofDocument_directives {files : Files} {originals documents : List Node} {done : Fragments}
    (hsession : Include.processAll files originals [] = .ok (documents, done))
    (hkeys : ∀ original ∈ originals, original.HasDistinctKeys) (hdocument : document ∈ documents)
    (h : ofDocument archs scope name filename document = .ok e) :
    ∃ host target, archs.Overlays document host target ∧
      ∀ key ∈ directiveKeys, e.data.hasKey key = true ↔ BringsBack host target key := by
  obtain ⟨hdistinct, hinclude⟩ := Include.of_processAll hsession hkeys hdocument
  obtain ⟨host, target, hoverlays, hdata⟩ := hasKey_ofDocument hdistinct h
  refine ⟨host, target, hoverlays, fun key hkey => ?_⟩
  rw [hdata, BringsBack]
  simp only [directiveKeys, List.mem_cons, List.not_mem_nil, or_false] at hkey
  change document.hasKey "include" = false at hinclude
  rcases hkey with rfl | rfl | rfl | rfl | rfl <;>
    simp [hinclude, Include.key, hostKey, targetKey, Dependency.listKey, Variant.listKey]

/-- A document whose overlay for a target names a fragment. -/
def includingDocument : Node :=
  let place : Provenance := .fileStart "app.bst"
  .mapping [("kind", .scalar (.string "manual") place),
    ("arches", .mapping [("x86_64", .mapping
      [("include", .scalar (.string "nowhere.yml") place)] place)] place)] place

/-- No such file is looked for, and the name of the fragment stays in the data. -/
theorem includingDocument_directives : ∃ documents done document e,
    Include.processAll [] [includingDocument] [] = .ok (documents, done) ∧ document ∈ documents ∧
      ofDocument ⟨none, some "x86_64"⟩ .file "app" "app.bst" document = .ok e ∧
      (∃ host target, Architectures.Overlays ⟨none, some "x86_64"⟩ document host target ∧
        ∀ key ∈ directiveKeys, e.data.hasKey key = true ↔ BringsBack host target key) ∧
      directiveKeys.filter e.data.hasKey = [Include.key] := by
  have hkeys : includingDocument.HasDistinctKeys := by
    simp [includingDocument, Node.HasDistinctKeys, Node.MembersHaveDistinctKeys, Keyed.keys]
  have hprocess : Include.processAll [] [includingDocument] [] = .ok ([includingDocument], []) := by
    decide +kernel
  have hread : ∃ e, ofDocument ⟨none, some "x86_64"⟩ .file "app" "app.bst" includingDocument = .ok e ∧
      directiveKeys.filter e.data.hasKey = [Include.key] := ⟨_, rfl, by decide⟩
  obtain ⟨e, he, hfilter⟩ := hread
  exact ⟨_, _, _, e, hprocess, List.mem_singleton_self _, he,
    ofDocument_directives hprocess (List.forall_mem_singleton.2 hkeys) (List.mem_singleton_self _) he,
    hfilter⟩

end Element

end BuildGraph
