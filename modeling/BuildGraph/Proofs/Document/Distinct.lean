import BuildGraph.Proofs.Document.Kept

/-!
# Keys stay distinct

No operation on documents repeats a key in a mapping: what is composed of documents whose mappings have
distinct keys is such a document again, also where the composition stops.
-/

namespace BuildGraph.Node

variable {document value : Node} {members : List (String × Node)} {key : String}
  {place : Provenance}

theorem HasDistinctKeys.put (h : (mapping members place).HasDistinctKeys)
    (hvalue : value.HasDistinctKeys) (key : String) :
    (mapping (Keyed.insert key value members) place).HasDistinctKeys := by
  obtain ⟨hkeys, hmembers⟩ := h
  rw [membersHaveDistinctKeys_iff] at hmembers
  refine ⟨Keyed.nodup_keys_insert key value hkeys, membersHaveDistinctKeys_iff.2 ?_⟩
  intro member hmember
  rcases Keyed.mem_of_mem_insert hmember with rfl | hold
  · exact hvalue
  · exact hmembers member hold

theorem HasDistinctKeys.remove (h : (mapping members place).HasDistinctKeys) (key : String) :
    (mapping (Keyed.erase key members) place).HasDistinctKeys := by
  obtain ⟨hkeys, hmembers⟩ := h
  rw [membersHaveDistinctKeys_iff] at hmembers
  exact ⟨Keyed.nodup_keys_erase key hkeys, membersHaveDistinctKeys_iff.2 fun member hmember =>
    hmembers member ((Keyed.erase_sublist key members).subset hmember)⟩

theorem isKept_hasDistinctKeys : IsKept HasDistinctKeys where
  item hitems := itemsHaveDistinctKeys_iff.1 hitems _
  sequence hitems _ := itemsHaveDistinctKeys_iff.2 hitems
  member hmembers hmember := membersHaveDistinctKeys_iff.1 hmembers.2 _ hmember
  empty _ := ⟨List.nodup_nil, trivial⟩
  put hmembers hvalue key := hmembers.put hvalue key
  remove hmembers key := hmembers.remove key

theorem HasDistinctKeys.get? (h : document.HasDistinctKeys) (hvalue : document.get? key = some value) :
    value.HasDistinctKeys :=
  isKept_hasDistinctKeys.get? h hvalue

theorem HasDistinctKeys.erase (h : document.HasDistinctKeys) (key : String) :
    (document.erase key).HasDistinctKeys :=
  isKept_hasDistinctKeys.erase h key

end BuildGraph.Node
