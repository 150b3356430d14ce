import BuildGraph.Proofs.Document.Conflict

/-!
# Strict composition

A strict composition overrides nothing. Where it comes to its end the result has at every path what
one of the two documents has there, or the two mappings merged (`Node.Adds`). Where it stops, a part
of the source has come to its end. So it only adds members, in either case
(`Node.composite_onlyExtends`).
-/

namespace BuildGraph.Node

/-- What a path leads to in the result of a strict composition, from what it leads to in the source and
in the target. -/
inductive Adds : Option Node → Option Node → Option Node → Prop
  | kept (old : Option Node) : Adds none old old
  | added (value : Node) : Adds (some value) none (some value)
  | merged {sources members more : List (String × Node)} (q p : Provenance) :
    Keyed.keys more = Keyed.keys members ++ unseen (Keyed.keys sources) (Keyed.keys members) →
    Adds (some (.mapping sources q)) (some (.mapping members p)) (some (.mapping more p))

/-- What a strict composition does to its target, whether it comes to its end or not. -/
structure OnlyExtends (source target : Node) (composed : Composed Node) : Prop where
  /-- What is no mapping stays as it is. -/
  leaves : ∀ path old, target.at? path = some old → old.isMapping = false →
    composed.result.at? path = some old
  /-- A mapping keeps its place, and its members their order in front of new ones. -/
  mappings : ∀ path members p, target.at? path = some (.mapping members p) →
    ∃ more, composed.result.at? path = some (.mapping more p) ∧
      Keyed.keys members <+: Keyed.keys more
  /-- If it comes to its end, all of the source has arrived. -/
  arrives : composed.error = none → ∀ path value, source.at? path = some value →
    value.isMapping = false → composed.result.at? path = some value
  /-- And there is nothing that neither side had. -/
  bounded : ∀ path, (composed.result.at? path).isSome = true →
    (source.at? path).isSome = true ∨ (target.at? path).isSome = true

variable {typesafe : Bool} {source target result value old : Node} {path above : List String}
  {key : String}

section Adds

theorem Adds.kept_of_leaf {value result : Option Node} (h : Adds value (some old) result)
    (hold : old.isMapping = false) : result = some old := by
  cases h with
  | kept => rfl
  | merged => cases hold

theorem Adds.extends_mapping {value result : Option Node} {members : List (String × Node)}
    {p : Provenance} (h : Adds value (some (.mapping members p)) result) :
    ∃ more, result = some (.mapping more p) ∧ Keyed.keys members <+: Keyed.keys more := by
  cases h with
  | kept => exact ⟨members, rfl, List.prefix_rfl⟩
  | merged _ _ hkeys => exact ⟨_, rfl, hkeys ▸ List.prefix_append ..⟩

theorem Adds.arrives {old result : Option Node} (h : Adds (some value) old result)
    (hvalue : value.isMapping = false) : result = some value := by
  cases h with
  | added => rfl
  | merged => cases hvalue

theorem Adds.isSome_iff {value old result : Option Node} (h : Adds value old result) :
    result.isSome = true ↔ value.isSome = true ∨ old.isSome = true := by
  cases h <;> simp

end Adds

theorem combine_strict {value old : Node} : CompositePolicy.combine .strict typesafe path value old ≠
    .ok result := by
  unfold CompositePolicy.combine
  rw [if_pos rfl]
  exact nofun

/-- A strict composition that comes to its end adds the source to the target, path by path. -/
theorem compositeValue_adds (hsource : source.HasDistinctKeys)
    (h : compositeValue .strict typesafe source above target = ⟨result, none⟩)
    (path : List String) : Adds (source.at? path) (target.at? path) (result.at? path) := by
  induction path generalizing source target result above with
  | nil =>
    rcases compositeValue_cases h with ⟨_, q, _, p, _, rfl, rfl, rfl, hmembers⟩ | ⟨-, hcombine⟩
    · exact .merged q p (compositeMembers_spec hsource.1 hmembers).1
    · exact absurd hcombine combine_strict
  | cons key path ih =>
    rcases compositeValue_cases h with
      ⟨sources, q, members, p, merged, rfl, rfl, rfl, hmembers⟩ | ⟨-, hcombine⟩
    · have hmeets := (compositeMembers_spec hsource.1 hmembers).2 key
      have hchild : ∀ value, sources.lookup key = some value → value.HasDistinctKeys :=
        fun value hvalue => hsource.get? (show (mapping sources q).get? key = some value from hvalue)
      simp only [at?_cons, get?, Node.members]
      generalize sources.lookup key = value at hmeets hchild ⊢
      generalize members.lookup key = old at hmeets ⊢
      generalize merged.lookup key = new at hmeets ⊢
      cases hmeets with
      | untouched => exact .kept _
      | new value =>
        rw [Option.bind_some, Option.bind_none]
        cases value.at? path with
        | none => exact .kept none
        | some below => exact .added below
      | both hvalue => exact ih (hchild _ rfl) hvalue
    · exact absurd hcombine combine_strict

section Before

variable {down : List String}

theorem membersHaveDistinctKeys_of_subset {members others : List (String × Node)}
    (h : members ⊆ others) (hothers : MembersHaveDistinctKeys others) :
    MembersHaveDistinctKeys members := by
  rw [membersHaveDistinctKeys_iff] at hothers ⊢
  exact fun member hmember => hothers member (h hmember)

theorem HasDistinctKeys.before (h : source.HasDistinctKeys)
    (hvalue : source.at? (key :: path) = some value) :
    (source.before (key :: path)).HasDistinctKeys := by
  induction path generalizing source key with
  | nil =>
    obtain ⟨front, v, back, q, rfl, -, hbefore, -⟩ := split_at? hvalue
    obtain ⟨hkeys, hmembers⟩ := h
    rw [hbefore]
    exact ⟨hkeys.sublist ((List.sublist_append_left ..).map _),
      membersHaveDistinctKeys_of_subset (List.subset_append_left ..) hmembers⟩
  | cons next path ih =>
    obtain ⟨front, v, back, q, rfl, hbelow, -, hbefore⟩ := split_at? hvalue
    obtain ⟨hkeys, hmembers⟩ := h
    have hv : v.HasDistinctKeys := membersHaveDistinctKeys_iff.1 hmembers (key, v) (by simp)
    rw [hbefore]
    have hfront : (Keyed.keys (front ++ [(key, v.before (next :: path))])).Sublist
        (Keyed.keys (front ++ (key, v) :: back)) := by
      simp only [Keyed.keys, List.map_append, List.map_cons, List.map_nil]
      exact (List.singleton_sublist.2 List.mem_cons_self).append_left _
    refine ⟨hkeys.sublist hfront, membersHaveDistinctKeys_iff.2 ?_⟩
    refine List.forall_mem_append.2 ⟨?_, List.forall_mem_singleton.2 (ih hv hbelow)⟩
    exact membersHaveDistinctKeys_iff.1
      (membersHaveDistinctKeys_of_subset (List.subset_append_left ..) hmembers)

/-- What comes before a node in a document is part of the document. -/
theorem isSome_at?_of_before (hvalue : source.at? (key :: path) = some value)
    (h : ((source.before (key :: path)).at? down).isSome = true) :
    (source.at? down).isSome = true := by
  induction path generalizing source key down with
  | nil =>
    obtain ⟨front, v, back, q, rfl, -, hbefore, -⟩ := split_at? hvalue
    rw [hbefore] at h
    cases down with
    | nil => rfl
    | cons first down =>
      simp only [at?_cons, get?, Node.members, List.lookup_append] at h ⊢
      cases hfirst : front.lookup first with
      | none => simp [hfirst] at h
      | some child => simpa [hfirst] using h
  | cons next path ih =>
    obtain ⟨front, v, back, q, rfl, hbelow, -, hbefore⟩ := split_at? hvalue
    rw [hbefore] at h
    cases down with
    | nil => rfl
    | cons first down =>
      simp only [at?_cons, get?, Node.members, List.lookup_append] at h ⊢
      cases hfirst : front.lookup first with
      | some child => simpa [hfirst] using h
      | none =>
        by_cases hkey : first = key
        · subst hkey
          simp only [hfirst, Option.none_or, List.lookup_cons, beq_self_eq_true, Option.bind_some]
            at h ⊢
          exact ih hbelow h
        · have hne : (first == key) = false := by simpa using hkey
          simp [hfirst, List.lookup_cons, hne] at h

end Before

/-- What a strict composition leaves is the target with a part of the source added to it, the whole
source if it comes to its end. No part is added where it is refused at once. -/
theorem exists_part_adds (typesafe : Bool) (target : Node) (hsource : source.HasDistinctKeys) :
    ∃ part : Option Node,
    ((target.composite source .strict typesafe).error = none → part = some source) ∧
    (∀ path, (part.bind (·.at? path)).isSome = true → (source.at? path).isSome = true) ∧
    ∀ path, Adds (part.bind (·.at? path)) (target.at? path)
      ((target.composite source .strict typesafe).result.at? path) := by
  have hnothing : ∀ path, ((none : Option Node).bind (·.at? path)).isSome = true →
      (source.at? path).isSome = true := fun path hsome => absurd hsome Bool.false_ne_true
  rw [composite]
  split
  · cases compositeValue_ends .strict typesafe source [] target hsource with
    | merged result hresult =>
      rw [hresult]
      exact ⟨some source, fun _ => rfl, fun _ => id, compositeValue_adds hsource hresult⟩
    | refused hresult =>
      rw [hresult]
      exact ⟨none, fun hend => absurd hend (Option.some_ne_none _), hnothing, fun path => .kept _⟩
    | stopped key path value old result hvalue _ _ _ hresult hpart =>
      rw [hresult]
      exact ⟨some (source.before (key :: path)), fun hend => absurd hend (Option.some_ne_none _),
        fun _ => isSome_at?_of_before hvalue, compositeValue_adds (hsource.before hvalue) hpart⟩
  · exact ⟨none, fun hend => absurd hend (Option.some_ne_none _), hnothing, fun path => .kept _⟩

/-- A strict composition adds to its target and changes nothing else, whether it comes to its end or
not. -/
theorem composite_onlyExtends (hsource : source.HasDistinctKeys) :
    OnlyExtends source target (target.composite source .strict typesafe) := by
  obtain ⟨part, hall, hpart, hadds⟩ := exists_part_adds typesafe target hsource
  refine ⟨?leaves, ?mappings, ?arrives, ?bounded⟩
  case leaves => exact fun path old hold hleaf => Adds.kept_of_leaf (hold ▸ hadds path) hleaf
  case mappings => exact fun path members p hold => Adds.extends_mapping (hold ▸ hadds path)
  case arrives =>
    intro hend path value hvalue hleaf
    obtain rfl := hall hend
    have hadded := hadds path
    rw [Option.bind_some, hvalue] at hadded
    exact hadded.arrives hleaf
  case bounded => exact fun path hsome => ((hadds path).isSome_iff.1 hsome).imp_left (hpart path)

/-- Stopped inside `config`, a strict composition has added `jobs` there, and left the rest. -/
theorem plainDocument_onlyExtends : ∃ composed,
    plainDocument.composite clashingDocument .strict false = composed ∧
      OnlyExtends clashingDocument plainDocument composed ∧
      composed.error = some (.override ["config", "debug"] (.fileStart "c.bst")) ∧
      (composed.result.at? ["config"]).map (fun config => Keyed.keys config.members) =
        some ["debug", "env", "jobs"] :=
  ⟨_, rfl, composite_onlyExtends clashingDocument_hasDistinctKeys, rfl, rfl⟩

end BuildGraph.Node
