import BuildGraph.Proofs.Document.Kept
import BuildGraph.Proofs.Element.Kind
import BuildGraph.Stack

/-!
# What reading an element keeps

Reading an element from its document, choosing a variant, taking the embeds of a stack apart and
reading the sections of the outcome do nothing to the data but what `Node.IsKept` speaks of. So all that
is read from a document has the properties of the document that are kept.
-/

namespace BuildGraph

/-- Whether the data of an element and of its variants have a property. -/
structure Element.AllData (q : Node → Prop) (e : Element) : Prop where
  data : q e.data
  variants : ∀ v ∈ e.variants, q v.data

theorem Node.eq_of_expectType {node found : Node} {key : String} {expected : ValueType}
    (h : node.expectType key expected = .ok found) : found = node := by
  rw [expectType] at h
  split at h
  · exact (Except.ok.inj h).symm
  · cases h

/-- The sections of the settings of an element and what its sources are configured with. -/
def Settings.sections (settings : Settings) : List Node :=
  [settings.config, settings.vars, settings.env, settings.published] ++
    settings.sources.map Source.config

namespace Node.IsKept

variable {q : Node → Prop} (hq : IsKept q) {archs : Architectures} {document data : Node}
  {key owner : String} {scope : DependencyScope}

include hq

section Element

variable {e chosen : Element} {variant : Option String}

theorem takeItems {items : List Node} {rest : Node} (hdocument : q document)
    (htake : document.takeItems key = .ok (items, rest)) : ∀ item ∈ items, q item := by
  simp only [Node.takeItems, bind_eq_ok_iff, pure_eq_ok_iff, Prod.mk.injEq] at htake
  obtain ⟨list, hlist, rfl, -⟩ := htake
  cases list with
  | none => exact List.forall_mem_nil _
  | some list => exact hq.items (hq.lookup hdocument hlist)

/-- An overlay is part of the document that it goes onto. -/
theorem overlay? {arch : Option String} {found : Option (String × Node)} (hdocument : q document)
    (h : Architectures.overlay? document key arch = .ok found) : ∀ overlay ∈ found, q overlay.2 := by
  rintro ⟨name, overlay⟩ rfl
  simp only [Architectures.overlay?, bind_eq_ok_iff] at h
  obtain ⟨overlays, hoverlays, h⟩ := h
  split at h
  · simp only [bind_eq_ok_iff, pure_eq_ok_iff, Option.map_eq_some_iff] at h
    obtain ⟨_, hoverlay, _, rfl, heq⟩ := h
    obtain ⟨-, rfl⟩ := Prod.mk.inj heq
    exact hq.lookup (hq.lookup hdocument hoverlays) hoverlay
  · cases h

theorem applyOverlay {arch : Option String} {result : Node} (hdocument : q document)
    (h : Architectures.applyOverlay key arch document = .ok result) : q result := by
  simp only [Architectures.applyOverlay, bind_eq_ok_iff, access_eq_ok_iff] at h
  obtain ⟨found, hfound, h⟩ := h
  cases found with
  | none => exact pure_eq_ok_iff.1 h ▸ hq.erase hdocument key
  | some overlay =>
    exact hq.onto (hq.erase hdocument key) (hq.overlay? hdocument hfound overlay rfl) h

theorem overlaid {result : Node} (hdocument : q document) (h : archs.apply document = .ok result) :
    q result := by
  obtain ⟨mid, hhost, htarget⟩ := bind_eq_ok_iff.1 h
  exact hq.applyOverlay (hq.applyOverlay hdocument hhost) htarget

theorem readVariant {before : List Variant} {item : Node} {v : Variant} (hitem : q item)
    (h : Variant.read archs scope owner before item = .ok v) : q v.data := by
  simp only [Variant.read, bind_eq_ok_iff, pure_eq_ok_iff, access_eq_ok_iff] at h
  obtain ⟨mapping, hmapping, _, -, _, -, _, -, overlaid, hoverlaid, ⟨deps, data⟩, hdata, rfl⟩ := h
  obtain rfl := Node.eq_of_expectType hmapping
  have hall := hq.overlaid (hq.erase hitem Variant.nameKey) hoverlaid
  exact Dependency.data_of_take hdata ▸ hq.erase hall _

theorem readVariants {items : List Node} {before variants : List Variant}
    (hitems : ∀ item ∈ items, q item) (hbefore : ∀ v ∈ before, q v.data)
    (h : Variant.readList archs scope owner items before = .ok variants) :
    ∀ v ∈ variants, q v.data := by
  induction items generalizing before with
  | nil => exact Except.ok.inj h ▸ hbefore
  | cons item rest ih =>
    obtain ⟨hitem, hrest⟩ := List.forall_mem_cons.1 hitems
    obtain ⟨variant, hvariant, hlater⟩ := bind_eq_ok_iff.1 h
    have hvariant := hq.readVariant hitem hvariant
    exact ih hrest (List.forall_mem_append.2 ⟨hbefore, List.forall_mem_singleton.2 hvariant⟩) hlater

theorem ofDocument {name filename : String} (hdocument : q document)
    (h : Element.ofDocument archs scope name filename document = .ok e) : e.AllData q := by
  simp only [Element.ofDocument, bind_eq_ok_iff, pure_eq_ok_iff] at h
  obtain ⟨_, -, overlaid, hoverlaid, ⟨deps, rest⟩, hdeps, ⟨variants, data⟩, hvariants, rfl⟩ := h
  have hrest : q rest :=
    Dependency.data_of_take hdeps ▸ hq.erase (hq.overlaid hdocument hoverlaid) _
  refine ⟨Variant.data_of_take hvariants ▸ hq.erase hrest _, ?_⟩
  simp only [Variant.take, bind_eq_ok_iff, pure_eq_ok_iff, access_eq_ok_iff, Prod.mk.injEq]
    at hvariants
  obtain ⟨⟨items, _⟩, hitems, _, hlist, rfl, -⟩ := hvariants
  exact hq.readVariants (hq.takeItems hrest hitems) (List.forall_mem_nil _) hlist

theorem dataIn (h : e.AllData q) (hdata : e.dataIn variant = .ok data) : q data := by
  rw [Element.dataIn] at hdata
  split at hdata
  · next v hv =>
    obtain ⟨name, -, hname⟩ := Option.bind_eq_some_iff.1 hv
    exact hq.onto h.data (h.variants v (Named.mem_of_find? hname)) hdata
  · exact Except.ok.inj hdata ▸ h.data

theorem choose (h : e.AllData q) (hchosen : e.choose variant = .ok chosen) : chosen.AllData q := by
  obtain ⟨data, hdata, rfl⟩ := Element.choose_eq_ok_iff.1 hchosen
  exact ⟨hq.dataIn h hdata, h.variants⟩

/-- The document of an embed is an item of the data of its stack. -/
theorem readEmbeds {embeds : List Embed} (hdata : q data) (h : Embed.readAll data = .ok embeds) :
    ∀ embed ∈ embeds, q embed.data := by
  intro embed hembed
  simp only [Embed.readAll, bind_eq_ok_iff, access_eq_ok_iff] at h
  obtain ⟨list, hlist, hitems⟩ := h
  obtain ⟨item, hitem, hread⟩ := exists_of_mem_mapM hitems hembed
  simp only [Embed.read, bind_eq_ok_iff, pure_eq_ok_iff, access_eq_ok_iff] at hread
  obtain ⟨mapping, hmapping, _, -, _, -, _, -, rfl⟩ := hread
  obtain rfl := Node.eq_of_expectType hmapping
  cases list with
  | none => cases hitem
  | some list => exact hq.erase (hq.items (hq.lookup hdata hlist) _ hitem) _

end Element

section Settings

theorem readSources {items : List Node} {index : Nat} {sources : List Source}
    (hitems : ∀ item ∈ items, q item) (h : Source.readList owner items index = .ok sources) :
    ∀ source ∈ sources, q source.config := by
  induction items generalizing index sources with
  | nil =>
    obtain rfl := Except.ok.inj h
    exact List.forall_mem_nil _
  | cons item rest ih =>
    obtain ⟨hitem, hrest⟩ := List.forall_mem_cons.1 hitems
    simp only [Source.readList, bind_eq_ok_iff, pure_eq_ok_iff] at h
    obtain ⟨source, hsource, others, hothers, rfl⟩ := h
    refine List.forall_mem_cons.2 ⟨?_, ih hrest hothers⟩
    simp only [Source.read, bind_eq_ok_iff, pure_eq_ok_iff, access_eq_ok_iff] at hsource
    obtain ⟨mapping, hmapping, _, -, _, -, rfl⟩ := hsource
    obtain rfl := Node.eq_of_expectType hmapping
    exact hq.erase (hq.erase hitem _) _

theorem isSection {found : Node} (hdocument : q document) (h : document.IsSection key found) :
    q found := by
  cases h with
  | present hfound => exact hq.get? hdocument hfound
  | absent => exact hq.empty _

/-- The sections of settings and what the sources are configured with are parts of the document. -/
theorem sections {settings : Settings} (hdocument : q document)
    (h : Settings.ReadFrom owner document settings) : ∀ node ∈ settings.sections, q node := by
  obtain ⟨hconfig, hvars, henv, hpublished⟩ := h.sections
  obtain ⟨sources, data, htake, hread⟩ := h
  simp only [Source.take, bind_eq_ok_iff, pure_eq_ok_iff, access_eq_ok_iff, Prod.mk.injEq] at htake
  obtain ⟨⟨items, _⟩, hitems, _, hlist, rfl, -⟩ := htake
  have hsources := hq.readSources (hq.takeItems hdocument hitems) hlist
  simp only [Settings.read, bind_eq_ok_iff, pure_eq_ok_iff] at hread
  obtain ⟨_, -, config, -, vars, -, env, -, _, -, published, -, rfl⟩ := hread
  intro node hnode
  rcases List.mem_append.1 hnode with hsection | hconfigured
  · simp only [List.mem_cons, List.not_mem_nil, or_false] at hsection
    rcases hsection with rfl | rfl | rfl | rfl
    · exact hq.isSection hdocument hconfig
    · exact hq.isSection hdocument hvars
    · exact hq.isSection hdocument henv
    · exact hq.isSection hdocument hpublished
  · obtain ⟨source, hsource, rfl⟩ := List.mem_map.1 hconfigured
    exact hsources source hsource

end Settings

end Node.IsKept

end BuildGraph
