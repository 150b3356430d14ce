import BuildGraph.Proofs.Document.Distinct
import BuildGraph.Proofs.Document.Extension
import Mathlib.Data.List.Pairwise
import Mathlib.Data.List.Perm.Basic

/-!
# Strict compositions one after the other

Strict compositions of several sources onto a document come to their end exactly if any two of the
documents have nothing in common but mappings (`Node.Compatible`). What they come to has at every path
what the first of the documents has there, apart from the members of mappings. So the order of the
sources matters for the order of members only, and for which of the mappings that the sources share
gives its place (`Node.Joins.permuted`).
-/

namespace BuildGraph.Node

/-- Whether what two documents have at a path is two mappings, or not on both sides. -/
def GoTogether : Option Node → Option Node → Prop
  | some value, some found => value.isMapping = true ∧ found.isMapping = true
  | _, _ => True

/-- Whether two documents have nothing in common but mappings. -/
def Compatible (node other : Node) : Prop :=
  ∀ path, GoTogether (node.at? path) (other.at? path)

/-- Strict compositions of the sources onto a document, one after the other, come to a result. -/
inductive Joins : Node → List Node → Node → Prop
  | nil (document : Node) : Joins document [] document
  | cons {document source mid result : Node} {rest : List Node} :
    document.composite source .strict false = ⟨mid, none⟩ → Joins mid rest result →
    Joins document (source :: rest) result

/-- A node without the members of a mapping. -/
def outline : Node → Node
  | mapping _ place => mapping [] place
  | node => node

/-- Whether two of the documents have something at a path, in different places. -/
def Shared (documents : List Node) (path : List String) : Prop :=
  ∃ first ∈ documents, ∃ second ∈ documents, ∃ value found, first.at? path = some value ∧
    second.at? path = some found ∧ value.place ≠ found.place

/-- Whether two documents have the same at a path, up to the order of members and, if `loose`, the place
of a mapping. -/
inductive Agrees (loose : Prop) : Option Node → Option Node → Prop
  | absent : Agrees loose none none
  | leaf {value : Node} : value.isMapping = false → Agrees loose (some value) (some value)
  | mapping {members others : List (String × Node)} {p q : Provenance} :
    (Keyed.keys members).Perm (Keyed.keys others) → p = q ∨ loose →
    Agrees loose (some (.mapping members p)) (some (.mapping others q))

variable {document source target result other value found : Node} {sources : List Node}
  {path : List String} {key : String} {typesafe : Bool}

section Outline

theorem isMapping_outline (value : Node) : value.outline.isMapping = value.isMapping := by
  cases value <;> rfl

/-- What a strict composition adds stands behind what was there. -/
theorem Adds.outline {value old new : Option Node} (h : Adds value old new) :
    new.map outline = (old.or value).map outline := by
  cases h with
  | kept => rw [Option.or_none]
  | added => rfl
  | merged => rfl

end Outline

section Compatible

theorem Compatible.symm (h : document.Compatible other) : other.Compatible document := by
  intro path
  have hpath := h path
  cases hvalue : document.at? path with
  | none => cases other.at? path <;> trivial
  | some value =>
    cases hfound : other.at? path with
    | none => trivial
    | some found =>
      rw [hvalue, hfound] at hpath
      exact hpath.symm

theorem conflict_strict_iff (typesafe : Bool) : Conflict .strict typesafe source target path ↔
    ¬GoTogether (target.at? path) (source.at? path) := by
  cases hold : target.at? path <;> cases hvalue : source.at? path <;>
    simp [Conflict, GoTogether, Clashes, hold, hvalue, and_comm]

/-- What goes together with the result of a strict composition goes together with both sides. -/
theorem Adds.goTogether_iff {value old new found : Option Node} (h : Adds value old new) :
    GoTogether new found ↔ GoTogether old found ∧ GoTogether value found := by
  cases h <;> cases found <;> simp [GoTogether, isMapping]

/-- A strict composition comes to its end exactly on compatible documents. -/
theorem exists_composite_iff (typesafe : Bool) (hsource : source.HasDistinctKeys) :
    (∃ result, target.composite source .strict typesafe = ⟨result, none⟩) ↔
      target.Compatible source := by
  have hcompatible : target.Compatible source ↔
      ∀ path, ¬Conflict .strict typesafe source target path :=
    forall_congr' fun path => by rw [conflict_strict_iff, not_not]
  rw [hcompatible, composite]
  split
  · cases compositeValue_ends .strict typesafe source [] target hsource with
    | merged result hresult hfree => exact iff_of_true ⟨result, hresult⟩ hfree
    | refused hresult hclash =>
      refine iff_of_false ?_ fun hfree => hfree [] ⟨_, _, rfl, rfl, hclash⟩
      rintro ⟨_, hnone⟩
      cases hresult.symm.trans hnone
    | stopped key path value old result hvalue hold hclash _ hresult =>
      refine iff_of_false ?_ fun hfree => hfree (key :: path) ⟨value, old, hvalue, hold, hclash⟩
      rintro ⟨_, hnone⟩
      cases hresult.symm.trans hnone
  · next hmappings =>
    refine iff_of_false ?_ fun hfree =>
      hfree [] ⟨_, _, rfl, rfl, fun hboth => hmappings ?_, .inl rfl⟩
    · rintro ⟨_, hnone⟩
      cases hnone
    · rw [hboth.1, hboth.2, Bool.and_self]

theorem composite_adds (hsource : source.HasDistinctKeys)
    (h : target.composite source .strict typesafe = ⟨result, none⟩) (path : List String) :
    Adds (source.at? path) (target.at? path) (result.at? path) := by
  rw [composite] at h
  split at h
  · exact compositeValue_adds hsource h path
  · cases h

theorem compatible_composite_iff (hsource : source.HasDistinctKeys)
    (h : target.composite source .strict typesafe = ⟨result, none⟩) :
    result.Compatible other ↔ target.Compatible other ∧ source.Compatible other := by
  simp only [Compatible, (composite_adds hsource h _).goTogether_iff, forall_and]

end Compatible

section Joins

/-- Sources are joined to a document exactly if they and the document are compatible, any two of
them. -/
theorem exists_joins_iff (hsources : ∀ source ∈ sources, source.HasDistinctKeys) :
    (∃ result, Joins document sources result) ↔ (document :: sources).Pairwise Compatible := by
  induction sources generalizing document with
  | nil => exact iff_of_true ⟨document, .nil document⟩ (List.pairwise_singleton _ _)
  | cons source rest ih =>
    obtain ⟨hsource, hrest⟩ := List.forall_mem_cons.1 hsources
    rw [List.pairwise_cons, List.forall_mem_cons, ← exists_composite_iff false hsource]
    -- a later source goes together with what the two come to if it does with both of them
    constructor
    · rintro ⟨result, h⟩
      cases h with
      | cons hmid hjoins =>
        have hpairwise := (ih hrest).1 ⟨result, hjoins⟩
        simp only [List.pairwise_cons, compatible_composite_iff hsource hmid] at hpairwise ⊢
        exact ⟨⟨⟨_, hmid⟩, fun later hlater => (hpairwise.1 later hlater).1⟩,
          fun later hlater => (hpairwise.1 later hlater).2, hpairwise.2⟩
    · rintro ⟨⟨⟨mid, hmid⟩, hdocument⟩, hpairwise⟩
      obtain ⟨hsource', hrest'⟩ := List.pairwise_cons.1 hpairwise
      obtain ⟨result, hjoins⟩ := (ih hrest).2 <| List.pairwise_cons.2
        ⟨fun later hlater => (compatible_composite_iff hsource hmid).2
          ⟨hdocument later hlater, hsource' later hlater⟩, hrest'⟩
      exact ⟨result, .cons hmid hjoins⟩

theorem findSome?_at?_cons : (document :: sources).findSome? (·.at? path) =
    (document.at? path).or (sources.findSome? (·.at? path)) := by
  rw [List.findSome?_cons]
  cases document.at? path <;> rfl

/-- Documents that are joined have at a path what the first of them has there. -/
theorem Joins.outline_at? (h : Joins document sources result)
    (hsources : ∀ source ∈ sources, source.HasDistinctKeys) (path : List String) :
    (result.at? path).map outline =
      ((document :: sources).findSome? (·.at? path)).map outline := by
  induction h with
  | nil document => rw [findSome?_at?_cons, List.findSome?_nil, Option.or_none]
  | @cons document source mid result rest hmid _ ih =>
    obtain ⟨hsource, hrest⟩ := List.forall_mem_cons.1 hsources
    have hadds := (composite_adds hsource hmid path).outline
    calc (result.at? path).map outline
      _ = ((mid.at? path).map outline).or ((rest.findSome? (·.at? path)).map outline) := by
        rw [ih hrest, findSome?_at?_cons, Option.map_or]
      _ = _ := by
        rw [hadds, ← Option.map_or, findSome?_at?_cons, findSome?_at?_cons, Option.or_assoc]

theorem Joins.isSome_at?_iff (h : Joins document sources result)
    (hsources : ∀ source ∈ sources, source.HasDistinctKeys) :
    (result.at? path).isSome = true ↔ ∃ node ∈ document :: sources, (node.at? path).isSome = true := by
  rw [← List.findSome?_isSome_iff, ← Option.isSome_map, h.outline_at? hsources, Option.isSome_map]

theorem Joins.hasDistinctKeys (h : Joins document sources result)
    (hdocument : document.HasDistinctKeys)
    (hsources : ∀ source ∈ sources, source.HasDistinctKeys) : result.HasDistinctKeys := by
  induction h with
  | nil => exact hdocument
  | @cons document source mid result rest hmid _ ih =>
    obtain ⟨hsource, hrest⟩ := List.forall_mem_cons.1 hsources
    have hkept : (document.composite source .strict false).result.HasDistinctKeys :=
      isKept_hasDistinctKeys.composite hdocument hsource
    rw [hmid] at hkept
    exact ih hkept hrest

end Joins

section Perm

theorem Agrees.imp {loose loose' : Prop} {value found : Option Node} (h : Agrees loose value found)
    (himp : loose → loose') : Agrees loose' value found := by
  cases h with
  | absent => exact .absent
  | leaf hleaf => exact .leaf hleaf
  | mapping hkeys hplace => exact .mapping hkeys (hplace.imp_right himp)

instance : Std.Symm Compatible := ⟨fun _ _ => .symm⟩

theorem mem_keys_iff {members : List (String × Node)} {p : Provenance}
    (h : document.at? path = some (.mapping members p)) :
    key ∈ Keyed.keys members ↔ (document.at? (path ++ [key])).isSome = true := by
  rw [at?_append, h, ← Keyed.lookup_isSome_iff]
  change _ ↔ ((members.lookup key).bind _).isSome = true
  cases members.lookup key with
  | none => rfl
  | some value => exact Iff.rfl

theorem cases_of_outline (h : value.outline = found.outline) :
    value = found ∧ value.isMapping = false ∨
      ∃ members others p, value = .mapping members p ∧ found = .mapping others p := by
  cases value <;> cases found <;> simp_all [outline, isMapping]

/-- Documents with the same paths agree where what they have has the same outline, and at mappings. -/
theorem agrees_of_outline {loose : Prop} (hresult : result.HasDistinctKeys)
    (hother : other.HasDistinctKeys)
    (hpaths : ∀ path, (result.at? path).isSome = true ↔ (other.at? path).isSome = true)
    (houtline : ∀ value found, result.at? path = some value → other.at? path = some found →
      value.outline = found.outline ∨
        value.outline.isMapping = true ∧ found.outline.isMapping = true ∧ loose) :
    Agrees loose (result.at? path) (other.at? path) := by
  have hmappings : ∀ {members others p q}, result.at? path = some (.mapping members p) →
      other.at? path = some (.mapping others q) → p = q ∨ loose →
      Agrees loose (result.at? path) (other.at? path) := by
    intro members others p q hvalue hfound hplace
    have hkeys : (Keyed.keys members).Perm (Keyed.keys others) := by
      rw [List.perm_ext_iff_of_nodup (hresult.at? hvalue).1 (hother.at? hfound).1]
      exact fun key => by rw [mem_keys_iff hvalue, mem_keys_iff hfound, hpaths]
    rw [hvalue, hfound]
    exact .mapping hkeys hplace
  have hpath := hpaths path
  cases hvalue : result.at? path with
  | none =>
    cases hfound : other.at? path with
    | none => exact .absent
    | some found => simp [hvalue, hfound] at hpath
  | some value =>
    cases hfound : other.at? path with
    | none => simp [hvalue, hfound] at hpath
    | some found =>
      rw [← hvalue, ← hfound]
      rcases houtline value found hvalue hfound with hsame | ⟨hleft, hright, hloose⟩
      · rcases cases_of_outline hsame with ⟨rfl, hleaf⟩ | ⟨members, others, p, rfl, rfl⟩
        · rw [hvalue, hfound]
          exact .leaf hleaf
        · exact hmappings hvalue hfound (.inl rfl)
      · rw [isMapping_outline] at hleft hright
        obtain ⟨members, p, rfl⟩ := exists_of_isMapping hleft
        obtain ⟨others, q, rfl⟩ := exists_of_isMapping hright
        exact hmappings hvalue hfound (.inr hloose)

/-- Of compatible documents any two have the same at a path, or two mappings. -/
theorem same_or_shared (h : sources.Pairwise Compatible) {first second : Node}
    (hfirst : first ∈ sources) (hsecond : second ∈ sources) (hvalue : first.at? path = some value)
    (hfound : second.at? path = some found) :
    value.outline = found.outline ∨
      value.outline.isMapping = true ∧ found.outline.isMapping = true ∧ Shared sources path := by
  by_cases hne : first = second
  · subst hne
    obtain rfl := Option.some.inj (hvalue.symm.trans hfound)
    exact .inl rfl
  · have htogether := h.forall hfirst hsecond hne path
    rw [hvalue, hfound] at htogether
    obtain ⟨members, p, rfl⟩ := exists_of_isMapping htogether.1
    obtain ⟨others, q, rfl⟩ := exists_of_isMapping htogether.2
    by_cases hplace : p = q
    · exact .inl (congrArg (mapping []) hplace)
    · exact .inr ⟨rfl, rfl, first, hfirst, second, hsecond, _, _, hvalue, hfound, hplace⟩

/-- The order in which sources are joined to a document matters for the order of members only, and for
the place of mappings that the document does not have and the sources have in several places. -/
theorem Joins.permuted {others : List Node} (hperm : sources.Perm others)
    (hdocument : document.HasDistinctKeys)
    (hsources : ∀ source ∈ sources, source.HasDistinctKeys) (h : Joins document sources result) :
    ∃ other, Joins document others other ∧ ∀ path,
      Agrees (document.at? path = none ∧ Shared sources path) (result.at? path) (other.at? path) := by
  have hothers : ∀ source ∈ others, source.HasDistinctKeys := fun source hsource =>
    hsources source (hperm.mem_iff.2 hsource)
  have hpairwise := (exists_joins_iff hsources).1 ⟨result, h⟩
  obtain ⟨other, hother⟩ := (exists_joins_iff hothers).2
    (((hperm.cons document).pairwise_iff Compatible.symm).1 hpairwise)
  refine ⟨other, hother, fun path => agrees_of_outline (h.hasDistinctKeys hdocument hsources)
    (hother.hasDistinctKeys hdocument hothers) (fun path => ?_) fun value found hvalue hfound => ?_⟩
  · rw [h.isSome_at?_iff hsources, hother.isSome_at?_iff hothers]
    exact exists_congr fun node => and_congr_left fun _ => (hperm.cons document).mem_iff
  · have hleft := h.outline_at? hsources path
    have hright := hother.outline_at? hothers path
    rw [hvalue, findSome?_at?_cons] at hleft
    rw [hfound, findSome?_at?_cons] at hright
    cases hold : document.at? path with
    | some old =>
      -- the document is in front of the sources in either order
      rw [hold] at hleft hright
      exact .inl (Option.some.inj (hleft.trans hright.symm))
    | none =>
      rw [hold, Option.none_or] at hleft hright
      obtain ⟨x, hx, hxvalue⟩ := Option.map_eq_some_iff.1 hleft.symm
      obtain ⟨y, hy, hyfound⟩ := Option.map_eq_some_iff.1 hright.symm
      obtain ⟨first, hfirst, hx⟩ := List.exists_of_findSome?_eq_some hx
      obtain ⟨second, hsecond, hy⟩ := List.exists_of_findSome?_eq_some hy
      rw [← hxvalue, ← hyfound]
      exact (same_or_shared (List.pairwise_cons.1 hpairwise).2 hfirst (hperm.mem_iff.2 hsecond) hx
        hy).imp_right fun hboth => ⟨hboth.1, hboth.2.1, rfl, hboth.2.2⟩

end Perm

end BuildGraph.Node
