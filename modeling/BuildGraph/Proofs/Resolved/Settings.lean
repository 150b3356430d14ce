import BuildGraph.Proofs.Outcome
import BuildGraph.Resolved.Collect

/-!
# The settings of a document

The settings of a resolved element are read off its document: each section is the mapping that stands
in the document under its key. What a load takes out of the document before has no part in them.
-/

namespace BuildGraph

/-- Whether a node is the section of a document under a key: the mapping that stands there, or an empty
one if nothing does. -/
inductive Node.IsSection (document : Node) (key : String) : Node → Prop
  | present {found : Node} : document.get? key = some found → found.isMapping = true →
    IsSection document key found
  | absent : (∀ found, document.get? key = some found → found.isNull = true) →
    IsSection document key (.emptyMapping document.place)

/-- Whether the settings of the element of a name are those of a document. -/
def Settings.ReadFrom (name : String) (document : Node) (settings : Settings) : Prop :=
  ∃ sources data, Source.take name document = .ok (sources, data) ∧
    Settings.read sources data = .ok settings

namespace Node

variable {document other : Node} {key : String}

theorem lookup_congr (h : document.get? key = other.get? key) (expected : ValueType) :
    document.lookup key expected = other.lookup key expected := by
  rw [lookup, lookup, h]

theorem getString_congr (h : document.get? key = other.get? key)
    (hplace : document.place = other.place) : document.getString key = other.getString key := by
  simp only [getString, getString?, lookup_congr h, required, hplace]

/-- What is read as a mapping is one. -/
theorem isMapping_of_accepts {node : Node} (h : ValueType.mapping.accepts node.valueType = true) :
    node.isMapping = true := by
  have htype : .mapping = node.valueType := by simpa [ValueType.accepts] using h
  cases node with
  | mapping => rfl
  | sequence => cases htype
  | scalar value => cases value <;> cases htype

/-- A mapping that is looked up is the section of its key. -/
theorem IsSection.of_mappingAt {found : Node} (h : Settings.mappingAt document key = .ok found) :
    document.IsSection key found := by
  simp only [Settings.mappingAt, bind_eq_ok_iff, pure_eq_ok_iff] at h
  obtain ⟨member, hmember, rfl⟩ := h
  rw [getMapping?, lookup] at hmember
  split at hmember
  · next hnone =>
    obtain rfl := Except.ok.inj hmember
    exact .absent fun found hfound => by simp [hnone] at hfound
  · next value hvalue =>
    split at hmember
    · next hnull =>
      obtain rfl := Except.ok.inj hmember
      refine .absent fun found hfound => ?_
      obtain rfl := Option.some.inj (hvalue.symm.trans hfound)
      exact (Bool.and_eq_true_iff.1 hnull).1
    · rw [expectType] at hmember
      split at hmember
      · next haccepts =>
        obtain rfl := Except.ok.inj hmember
        exact .present hvalue (isMapping_of_accepts haccepts)
      · cases hmember

theorem IsSection.of_erase {taken : String} {found : Node} (hne : key ≠ taken)
    (h : (document.erase taken).IsSection key found) : document.IsSection key found := by
  have hget := get?_erase_of_ne hne document
  cases h with
  | present hfound hmapping => exact .present (hget ▸ hfound) hmapping
  | absent hnull =>
    rw [place_erase]
    exact .absent fun found hfound => hnull found (hget.trans hfound)

end Node

namespace Settings

variable {document other : Node} {name : String} {settings : Settings}

theorem mappingAt_congr {key : String} (h : document.get? key = other.get? key)
    (hplace : document.place = other.place) : mappingAt document key = mappingAt other key := by
  simp only [mappingAt, Node.getMapping?, Node.lookup_congr h, hplace]

theorem strings_congr {key : String} (h : document.get? key = other.get? key) :
    strings document key = strings other key := by
  simp only [strings, Node.getSequence?, Node.lookup_congr h]

/-- The keys under which settings are read. -/
def keys : List String :=
  [Element.kindKey, Source.listKey, "config", "variables", "environment", "environment-nocache",
    "public"]

/-- Settings are read from the members under their keys only. -/
theorem read_congr {sources : List Source}
    (h : ∀ key ∈ keys, key ≠ Source.listKey → document.get? key = other.get? key)
    (hplace : document.place = other.place) : read sources document = read sources other := by
  have hmapping : ∀ key ∈ keys, key ≠ Source.listKey → mappingAt document key = mappingAt other key :=
    fun key hkey hne => mappingAt_congr (h key hkey hne) hplace
  rw [read, read, Node.getString_congr (h Element.kindKey (by decide) (by decide)) hplace,
    hmapping "config" (by decide) (by decide), hmapping "variables" (by decide) (by decide),
    hmapping "environment" (by decide) (by decide), hmapping "public" (by decide) (by decide),
    strings_congr (h "environment-nocache" (by decide) (by decide)), hplace]

/-- What is taken out under another key has no part in the settings. -/
theorem ReadFrom.of_erase {key : String} (hkey : key ∉ keys)
    (h : ReadFrom name (document.erase key) settings) : ReadFrom name document settings := by
  have hget : ∀ other ∈ keys, (document.erase key).get? other = document.get? other :=
    fun other hother => Node.get?_erase_of_ne (ne_of_mem_of_not_mem hother hkey) document
  obtain ⟨sources, data, htake, hread⟩ := h
  simp only [Source.take, Node.takeItems, bind_eq_ok_iff, pure_eq_ok_iff, Prod.mk.injEq,
    access_eq_ok_iff] at htake
  obtain ⟨⟨items, rest⟩, ⟨list, hlist, rfl, rfl⟩, taken, hsources, rfl, rfl⟩ := htake
  refine ⟨taken, document.erase Source.listKey, ?_, ?_⟩
  · rw [Node.getSequence?, Node.lookup_congr (hget Source.listKey (by decide))] at hlist
    simp only [Source.take, Node.takeItems, bind_eq_ok_iff, pure_eq_ok_iff, Prod.mk.injEq,
      access_eq_ok_iff]
    exact ⟨_, ⟨list, hlist, rfl⟩, taken, hsources, rfl, rfl⟩
  · rw [← hread]
    refine read_congr (fun other hother hne => ?_) (by simp)
    rw [Node.get?_erase_of_ne hne, Node.get?_erase_of_ne hne, hget other hother]

/-- The sections of settings are those of the document. -/
theorem ReadFrom.sections (h : ReadFrom name document settings) :
    document.IsSection "config" settings.config ∧ document.IsSection "variables" settings.vars ∧
      document.IsSection "environment" settings.env ∧
      document.IsSection "public" settings.published := by
  obtain ⟨sources, data, htake, hread⟩ := h
  simp only [Source.take, Node.takeItems, bind_eq_ok_iff, pure_eq_ok_iff, Prod.mk.injEq,
    access_eq_ok_iff] at htake
  obtain ⟨⟨items, rest⟩, ⟨list, -, rfl, rfl⟩, taken, -, rfl, rfl⟩ := htake
  simp only [read, bind_eq_ok_iff, pure_eq_ok_iff] at hread
  obtain ⟨kind, -, config, hconfig, vars, hvars, env, henv, uncached, -, published, hpublished, rfl⟩ :=
    hread
  exact ⟨(Node.IsSection.of_mappingAt hconfig).of_erase (by decide),
    (Node.IsSection.of_mappingAt hvars).of_erase (by decide),
    (Node.IsSection.of_mappingAt henv).of_erase (by decide),
    (Node.IsSection.of_mappingAt hpublished).of_erase (by decide)⟩

end Settings

end BuildGraph
