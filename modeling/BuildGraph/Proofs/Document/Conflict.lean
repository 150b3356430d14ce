import BuildGraph.Proofs.Document.Merge

/-!
# Where a composition stops

Source and target are in conflict at a path where both have a value, unless the two go together
(`Node.Conflict`). A composition fails exactly on documents that are in conflict. It stops at the first
conflict in the pre-order of the source, and leaves what merging the part of the source before that
comes to (`Node.composite_stops`).
-/

namespace BuildGraph

/-- What is reported of a value that does not go together with the one at `path`. -/
def CompositePolicy.refusal (policy : CompositePolicy) (path : List String) (value old : Node) :
    CompositeError :=
  if policy = .strict then .override path value.place
  else .typeConflict path old.valueType value.valueType

namespace Node

mutual
/-- The paths to the nodes of a document, in pre-order. -/
def paths : Node → List (List String)
  | mapping members _ => [] :: memberPaths members
  | _ => [[]]

/-- The paths to the nodes of members, one member after the other. -/
def memberPaths : List (String × Node) → List (List String)
  | [] => []
  | (key, value) :: rest => value.paths.map (key :: ·) ++ memberPaths rest
end

/-- What members hold before the node at a path: the members in front of the one that the path leads
into, and of this one what it holds before the node. -/
def membersBefore : (path : List String) → (members : List (String × Node)) → List (String × Node)
  | [], _ => []
  | [key], members => members.takeWhile fun member => member.1 != key
  | key :: next :: path, members =>
    (members.takeWhile fun member => member.1 != key) ++ (members.lookup key).toList.map fun value =>
      (key, mapping (membersBefore (next :: path) value.members) value.place)

/-- What a mapping holds before the node at a path. -/
def before (node : Node) (path : List String) : Node :=
  mapping (membersBefore path node.members) node.place

/-- Whether a value does not go together with the one that it is put onto. Two mappings always do. -/
def Clashes (policy : CompositePolicy) (typesafe : Bool) (value old : Node) : Prop :=
  ¬(value.isMapping = true ∧ old.isMapping = true) ∧
    (policy = .strict ∨ (value.isMapping = true ∧ old.isNull = false) ∨
      typesafe = true ∧ value.valueType ≠ old.valueType ∧ value.isNull = false ∧
        old.isNull = false ∧
        ¬(value.valueType.isStringLike = true ∧ old.valueType.isStringLike = true))

/-- Whether source and target both have a value at a path, and so mappings above it, and the values do
not go together. -/
def Conflict (policy : CompositePolicy) (typesafe : Bool) (source target : Node)
    (path : List String) : Prop :=
  ∃ value old, source.at? path = some value ∧ target.at? path = some old ∧
    Clashes policy typesafe value old

/-- The first conflict of source and target in the pre-order of the source, with the two values that are
in conflict. -/
structure FirstConflict (policy : CompositePolicy) (typesafe : Bool) (source target : Node)
    (path : List String) (value old : Node) : Prop where
  source_at : source.at? path = some value
  target_at : target.at? path = some old
  clashes : Clashes policy typesafe value old
  /-- What the source has before the path is what comes before it in the pre-order. -/
  behind : ∃ later, source.paths = (source.before path).paths ++ path :: later
  free : ∀ other ∈ (source.before path).paths, ¬Conflict policy typesafe source target other

/-- How a composition stops on the conflicts of source and target. -/
structure Stops (policy : CompositePolicy) (typesafe : Bool) (source target : Node)
    (composed : Composed Node) : Prop where
  /-- It fails exactly if there is one. -/
  fails_iff : composed.error ≠ none ↔ ∃ path, Conflict policy typesafe source target path
  /-- The error is about the first one, and what the source has before it is merged. -/
  first : ∀ e, composed.error = some e → ∃ path value old,
    FirstConflict policy typesafe source target path value old ∧
    e = policy.refusal path value old ∧ e.path = ".".intercalate path ∧
    target.composite (source.before path) policy typesafe = ⟨composed.result, none⟩

variable {policy : CompositePolicy} {typesafe : Bool} {value old source target : Node}
  {path above : List String} {key : String} {sources members rest : List (String × Node)}
  {p q : Provenance}

section Clash

theorem isNull_iff : value.isNull = true ↔ value.valueType = .null := by
  cases value with
  | scalar s => cases s <;> simp [isNull, valueType, Scalar.valueType]
  | sequence => simp [isNull, valueType]
  | mapping => simp [isNull, valueType]

theorem compatible_eq_false_iff : old.valueType.compatible value.valueType = false ↔
    value.valueType ≠ old.valueType ∧ value.isNull = false ∧ old.isNull = false ∧
      ¬(value.valueType.isStringLike = true ∧ old.valueType.isStringLike = true) := by
  simp only [← Bool.not_eq_true, isNull_iff]
  generalize value.valueType = actual
  generalize old.valueType = expected
  cases actual <;> cases expected <;> decide

/-- Values that do not clash are combined, others are refused. -/
theorem combine_cases (policy : CompositePolicy) (typesafe : Bool) (path : List String)
    (h : ¬(value.isMapping = true ∧ old.isMapping = true)) :
    (¬Clashes policy typesafe value old ∧
      ∃ result, policy.combine typesafe path value old = .ok result) ∨
    Clashes policy typesafe value old ∧
      policy.combine typesafe path value old = .error (policy.refusal path value old) := by
  unfold CompositePolicy.combine CompositePolicy.refusal
  by_cases hpolicy : policy = .strict
  · rw [if_pos hpolicy, if_pos hpolicy]
    exact .inr ⟨⟨h, .inl hpolicy⟩, rfl⟩
  · rw [if_neg hpolicy, if_neg hpolicy]
    split
    · next hunfit =>
      refine .inr ⟨⟨h, .inr ?_⟩, rfl⟩
      simpa only [Bool.or_eq_true, Bool.and_eq_true, Bool.not_eq_true', compatible_eq_false_iff]
        using hunfit
    · next hfits =>
      refine .inl ⟨fun hclash => hfits ?_, ?_⟩
      · simpa only [Bool.or_eq_true, Bool.and_eq_true, Bool.not_eq_true', compatible_eq_false_iff,
          hpolicy, false_or] using hclash.2
      · split
        · exact ⟨_, rfl⟩
        · exact ⟨_, rfl⟩

theorem compositeValue_of_not_mappings (h : ¬(source.isMapping = true ∧ target.isMapping = true)) :
    compositeValue policy typesafe source above target =
      match policy.combine typesafe above source target with
      | .ok node => ⟨node, none⟩
      | .error e => ⟨target, some e⟩ := by
  unfold compositeValue
  split
  · exact absurd ⟨rfl, rfl⟩ h
  · rfl

theorem not_mappings (h : ∀ sources q members p, source = .mapping sources q →
    target = .mapping members p → False) : ¬(source.isMapping = true ∧ target.isMapping = true) := by
  rintro ⟨hsource, htarget⟩
  obtain ⟨sources, q, rfl⟩ := exists_of_isMapping hsource
  obtain ⟨members, p, rfl⟩ := exists_of_isMapping htarget
  exact h sources q members p rfl rfl

end Clash

section Before

theorem paths_eq_cons (node : Node) : ∃ below, node.paths = [] :: below := by
  cases node with
  | mapping members place => exact ⟨_, rfl⟩
  | scalar => exact ⟨_, rfl⟩
  | sequence => exact ⟨_, rfl⟩

theorem memberPaths_append (members others : List (String × Node)) :
    memberPaths (members ++ others) = memberPaths members ++ memberPaths others := by
  induction members with
  | nil => rfl
  | cons member rest ih =>
    rw [List.cons_append, memberPaths, memberPaths, ih, List.append_assoc]

theorem before_cons_of_ne {other : String} (h : other ≠ key) :
    (mapping ((key, value) :: rest) q).before (other :: path) =
      mapping ((key, value) :: ((mapping rest q).before (other :: path)).members) q := by
  have hne : (other == key) = false := by simpa using h
  have hkey : (key != other) = true := by simpa using Ne.symm h
  cases path with
  | nil => simp [before, membersBefore, Node.members, Node.place, hkey]
  | cons next path =>
    simp [before, membersBefore, Node.members, Node.place, hkey, List.lookup_cons, hne]

theorem before_cons_singleton :
    (mapping ((key, value) :: rest) q).before [key] = mapping [] q := by
  simp [before, membersBefore, Node.members, Node.place]

theorem before_cons_self {next : String} :
    (mapping ((key, value) :: rest) q).before (key :: next :: path) =
      mapping [(key, value.before (next :: path))] q := by
  simp [before, membersBefore, Node.members, Node.place]

theorem at?_mapping_cons_self :
    (mapping ((key, value) :: rest) q).at? (key :: path) = value.at? path := by
  simp [at?_cons, get?, Node.members]

theorem at?_mapping_cons_of_ne {other : String} (h : other ≠ key) :
    (mapping ((key, value) :: rest) q).at? (other :: path) = (mapping rest q).at? (other :: path) := by
  have hne : (other == key) = false := by simpa using h
  simp only [at?_cons, get?, Node.members, List.lookup_cons, hne]

theorem takeWhile_ne_key {front back : List (String × Node)}
    (hfront : ∀ member ∈ front, key ≠ member.1) :
    (front ++ (key, value) :: back).takeWhile (fun member => member.1 != key) = front := by
  have hne : ∀ member ∈ front, (member.1 != key) = true := by
    intro member hmember
    simpa using Ne.symm (hfront member hmember)
  rw [List.takeWhile_append_of_pos hne, List.takeWhile_cons_of_neg (by simp), List.append_nil]

/-- A path leads into a mapping at one of its members, and what lies before it is in front of that
member or in it. -/
theorem split_at? (h : source.at? (key :: path) = some value) :
    ∃ front v back q, source = .mapping (front ++ (key, v) :: back) q ∧ v.at? path = some value ∧
      source.before [key] = mapping front q ∧
      ∀ next down, source.before (key :: next :: down) =
        mapping (front ++ [(key, v.before (next :: down))]) q := by
  cases source with
  | scalar => cases h
  | sequence => cases h
  | mapping members q =>
    obtain ⟨v, hv, hvalue⟩ := Option.bind_eq_some_iff.1 h
    have hlookup : members.lookup key = some v := hv
    obtain ⟨front, back, rfl, hfront⟩ := List.lookup_eq_some_iff.1 hlookup
    have hwhile : (front ++ (key, v) :: back).takeWhile (fun member => member.1 != key) = front :=
      takeWhile_ne_key (by simpa using hfront)
    refine ⟨front, v, back, q, rfl, hvalue, ?_, fun next down => ?_⟩
    · simp only [before, membersBefore, Node.members, Node.place, hwhile]
    · simp only [before, membersBefore, Node.members, Node.place, hwhile, hlookup,
        Option.toList_some, List.map_cons, List.map_nil]

/-- In the pre-order of a document a node comes right behind what lies before it. -/
theorem paths_eq_before (h : source.at? (key :: path) = some value) :
    ∃ later, source.paths = (source.before (key :: path)).paths ++ (key :: path) :: later := by
  induction path generalizing source key with
  | nil =>
    obtain ⟨front, v, back, q, rfl, -, hbefore, -⟩ := split_at? h
    obtain ⟨below, hbelow⟩ := paths_eq_cons v
    rw [hbefore, paths, paths, memberPaths_append, memberPaths, hbelow]
    exact ⟨_, rfl⟩
  | cons next path ih =>
    obtain ⟨front, v, back, q, rfl, hvalue, -, hbefore⟩ := split_at? h
    obtain ⟨later, hlater⟩ := ih hvalue
    refine ⟨later.map (key :: ·) ++ memberPaths back, ?_⟩
    rw [hbefore, paths, paths, memberPaths_append, memberPaths_append, memberPaths, memberPaths,
      memberPaths, hlater]
    simp only [List.map_append, List.map_cons, List.append_assoc, List.cons_append, List.append_nil]

end Before

section Conflict

theorem not_conflict_nil :
    ¬Conflict policy typesafe (.mapping sources q) (.mapping members p) [] := by
  rintro ⟨_, _, hvalue, hold, hclash⟩
  cases hvalue
  cases hold
  exact hclash.1 ⟨rfl, rfl⟩

theorem isMapping_of_at? (h : source.at? (key :: path) = some value) : source.isMapping = true := by
  cases source with
  | mapping => rfl
  | scalar => cases h
  | sequence => cases h

/-- Unless both are mappings, two values are in conflict only where they stand. -/
theorem clashes_of_conflict (hleaf : ¬(source.isMapping = true ∧ target.isMapping = true))
    (h : Conflict policy typesafe source target path) : Clashes policy typesafe source target := by
  obtain ⟨value, old, hvalue, hold, hclash⟩ := h
  cases path with
  | nil =>
    cases hvalue
    cases hold
    exact hclash
  | cons key path => exact absurd ⟨isMapping_of_at? hvalue, isMapping_of_at? hold⟩ hleaf

theorem ne_of_at? {other : String} (hkey : key ∉ Keyed.keys rest)
    (h : (mapping rest q).at? (other :: path) = some value) : other ≠ key := by
  rintro rfl
  have hnone : (mapping rest q).get? other = none := Keyed.lookup_eq_none_iff.2 hkey
  rw [at?_cons, hnone] at h
  cases h

/-- Below a member that both sides have the conflicts are those of its two values. -/
theorem conflict_cons_self_iff (h : members.lookup key = some old) :
    Conflict policy typesafe (.mapping ((key, value) :: rest) q) (.mapping members p) (key :: path) ↔
      Conflict policy typesafe value old path := by
  have hold : (mapping members p).at? (key :: path) = old.at? path := by
    rw [at?_cons, show (mapping members p).get? key = some old from h, Option.bind_some]
  simp only [Conflict, at?_mapping_cons_self, hold]

/-- Behind a member without a conflict the conflicts are those of the other members. -/
theorem conflict_cons_iff {put : Node} (hkey : key ∉ Keyed.keys rest)
    (hfree : ∀ old, members.lookup key = some old → ∀ path,
      ¬Conflict policy typesafe value old path) :
    Conflict policy typesafe (.mapping ((key, value) :: rest) q) (.mapping members p) path ↔
      Conflict policy typesafe (.mapping rest q) (.mapping (Keyed.insert key put members) p)
        path := by
  cases path with
  | nil => exact iff_of_false not_conflict_nil not_conflict_nil
  | cons other path =>
    by_cases hother : other = key
    · subst hother
      refine iff_of_false (fun h => ?_) ?_
      · obtain ⟨_, _, -, hold, -⟩ := id h
        obtain ⟨existing, hexisting, -⟩ := Option.bind_eq_some_iff.1 hold
        exact hfree existing hexisting path ((conflict_cons_self_iff hexisting).1 h)
      · rintro ⟨_, _, hvalue, -⟩
        exact ne_of_at? hkey hvalue rfl
    · have hinsert : (mapping (Keyed.insert key put members) p).at? (other :: path) =
          (mapping members p).at? (other :: path) := by
        simp only [at?_cons, get?, Node.members, Keyed.lookup_insert, if_neg hother]
      simp only [Conflict, at?_mapping_cons_of_ne hother, hinsert]

end Conflict

section Ends

/-- How the composition of a value onto another one ends: it is merged if there is no conflict, and
else it is refused as a whole or stopped at the first conflict below. -/
inductive Ends (policy : CompositePolicy) (typesafe : Bool) (source : Node) (above : List String)
    (target : Node) : Prop
  | merged (result : Node) :
    compositeValue policy typesafe source above target = ⟨result, none⟩ →
    (∀ path, ¬Conflict policy typesafe source target path) →
    Ends policy typesafe source above target
  | refused :
    compositeValue policy typesafe source above target =
      ⟨target, some (policy.refusal above source target)⟩ →
    Clashes policy typesafe source target →
    Ends policy typesafe source above target
  | stopped (key : String) (path : List String) (value old result : Node) :
    source.at? (key :: path) = some value → target.at? (key :: path) = some old →
    Clashes policy typesafe value old →
    (∀ other ∈ (source.before (key :: path)).paths,
      ¬Conflict policy typesafe source target other) →
    compositeValue policy typesafe source above target =
      ⟨result, some (policy.refusal (above ++ key :: path) value old)⟩ →
    compositeValue policy typesafe (source.before (key :: path)) above target = ⟨result, none⟩ →
    Ends policy typesafe source above target

theorem distinct_cons (h : HasDistinctKeys (.mapping ((key, value) :: rest) q)) :
    key ∉ Keyed.keys rest ∧ HasDistinctKeys (.mapping rest q) := by
  obtain ⟨hkeys, -, hrest⟩ := h
  obtain ⟨hkey, hkeys⟩ := List.nodup_cons.1 hkeys
  exact ⟨hkey, hkeys, hrest⟩

/-- A value that is merged is not in conflict anywhere. -/
theorem Ends.not_conflict (h : Ends policy typesafe source above target)
    (hnone : (compositeValue policy typesafe source above target).error = none) :
    ¬Conflict policy typesafe source target path := by
  cases h with
  | merged result _ hfree => exact hfree path
  | refused hresult => cases hnone.symm.trans (congrArg Composed.error hresult)
  | stopped _ _ _ _ _ _ _ _ _ hresult => cases hnone.symm.trans (congrArg Composed.error hresult)

/-- Behind a member that is merged the composition ends as that of the other members does. -/
theorem Ends.cons {put : Node} (hkey : key ∉ Keyed.keys rest)
    (hstep : ∀ others, compositeMembers policy typesafe ((key, value) :: others) above members =
      compositeMembers policy typesafe others above (Keyed.insert key put members))
    (hfree : ∀ old, members.lookup key = some old → ∀ path,
      ¬Conflict policy typesafe value old path)
    (h : Ends policy typesafe (.mapping rest q) above
      (.mapping (Keyed.insert key put members) p)) :
    Ends policy typesafe (.mapping ((key, value) :: rest) q) above (.mapping members p) := by
  have hvalue : ∀ others, compositeValue policy typesafe (.mapping ((key, value) :: others) q) above
      (.mapping members p) = compositeValue policy typesafe (.mapping others q) above
      (.mapping (Keyed.insert key put members) p) := by
    intro others
    rw [compositeValue, compositeValue, hstep]
  have hconflict : ∀ {path}, Conflict policy typesafe (.mapping ((key, value) :: rest) q)
      (.mapping members p) path → Conflict policy typesafe (.mapping rest q)
      (.mapping (Keyed.insert key put members) p) path := (conflict_cons_iff hkey hfree).1
  cases h with
  | merged result hresult hnone =>
    exact .merged result (by rw [hvalue, hresult]) fun path hpath => hnone path (hconflict hpath)
  | refused _ hclash => exact absurd ⟨rfl, rfl⟩ hclash.1
  | stopped other path found old result hfound hold hclash hbefore hresult hpart =>
    have hother : other ≠ key := ne_of_at? hkey hfound
    refine .stopped other path found old result ?_ ?_ hclash ?_ (by rw [hvalue, hresult]) ?_
    · rw [at?_mapping_cons_of_ne hother, hfound]
    · rw [← hold]
      simp only [at?_cons, get?, Node.members, Keyed.lookup_insert, if_neg hother]
    · rw [before_cons_of_ne hother, paths, memberPaths]
      refine List.forall_mem_cons.2 ⟨not_conflict_nil, List.forall_mem_append.2 ⟨?_, ?_⟩⟩
      · refine List.forall_mem_map.2 fun down _ hdown => ?_
        obtain ⟨_, _, hbelow, -⟩ := hconflict hdown
        exact ne_of_at? hkey hbelow rfl
      · exact fun down hdown hpath =>
          hbefore down (List.mem_cons_of_mem _ hdown) (hconflict hpath)
    · rw [before_cons_of_ne hother, hvalue]
      exact hpart

section Stop

variable (hfound : members.lookup key = some old)

include hfound

/-- A member that is not merged stops the composition. -/
theorem compositeValue_stop {result : Node} {e : CompositeError}
    (h : compositeValue policy typesafe value (above ++ [key]) old = ⟨result, some e⟩) :
    compositeValue policy typesafe (.mapping ((key, value) :: rest) q) above (.mapping members p) =
      ⟨.mapping (Keyed.insert key result members) p, some e⟩ := by
  simp only [compositeValue, compositeMembers, hfound, h]

theorem compositeValue_single {result : Node}
    (h : compositeValue policy typesafe value (above ++ [key]) old = ⟨result, none⟩) :
    compositeValue policy typesafe (.mapping [(key, value)] q) above (.mapping members p) =
      ⟨.mapping (Keyed.insert key result members) p, none⟩ := by
  simp only [compositeValue, compositeMembers, hfound, h]

theorem Ends.stop (h : Ends policy typesafe value (above ++ [key]) old)
    (herror : (compositeValue policy typesafe value (above ++ [key]) old).error ≠ none) :
    Ends policy typesafe (.mapping ((key, value) :: rest) q) above (.mapping members p) := by
  have hold : ∀ {down}, (mapping members p).at? (key :: down) = old.at? down := by
    intro down
    rw [at?_cons, show (mapping members p).get? key = some old from hfound, Option.bind_some]
  cases h with
  | merged result hresult => exact absurd (congrArg Composed.error hresult) herror
  | refused hresult hclash =>
    refine .stopped key [] value old _ at?_mapping_cons_self hold hclash ?_
      (compositeValue_stop hfound hresult) ?_
    · rw [before_cons_singleton]
      exact List.forall_mem_singleton.2 not_conflict_nil
    · rw [before_cons_singleton, Keyed.insert_of_lookup hfound, compositeValue, compositeMembers]
  | stopped next path found other result hfoundAt hotherAt hclash hbefore hresult hpart =>
    rw [List.append_assoc] at hresult
    refine .stopped key (next :: path) found other _ ?_ ?_ hclash ?_
      (compositeValue_stop hfound hresult) ?_
    · rw [at?_mapping_cons_self, hfoundAt]
    · rw [hold, hotherAt]
    · rw [before_cons_self, paths, memberPaths, memberPaths, List.append_nil]
      refine List.forall_mem_cons.2 ⟨not_conflict_nil, List.forall_mem_map.2 fun down hdown => ?_⟩
      rw [conflict_cons_self_iff hfound]
      exact hbefore down hdown
    · rw [before_cons_self]
      exact compositeValue_single hfound hpart

end Stop

/-- Every composition of two values ends at their first conflict. -/
theorem compositeValue_ends (policy : CompositePolicy) (typesafe : Bool) (source : Node)
    (above : List String) (target : Node) : source.HasDistinctKeys →
    Ends policy typesafe source above target := by
  refine compositeValue.induct policy typesafe
    (fun source above target => source.HasDistinctKeys → Ends policy typesafe source above target)
    (fun sources above members => ∀ p q, HasDistinctKeys (.mapping sources q) →
      Ends policy typesafe (.mapping sources q) above (.mapping members p))
    ?_ ?_ ?_ ?_ ?_ ?_ ?_ source above target
  · -- two mappings
    intro sources q above members p ih hsource
    exact ih p q hsource
  · -- combined
    intro source above target hother node hnode _
    have hleaf : ¬(source.isMapping = true ∧ target.isMapping = true) := not_mappings hother
    rcases combine_cases policy typesafe above hleaf with ⟨hclash, -⟩ | ⟨-, herror⟩
    · refine .merged node ?_ fun path hpath => hclash (clashes_of_conflict hleaf hpath)
      rw [compositeValue_of_not_mappings hleaf, hnode]
    · cases hnode.symm.trans herror
  · -- refused
    intro source above target hother e he _
    have hleaf : ¬(source.isMapping = true ∧ target.isMapping = true) := not_mappings hother
    rcases combine_cases policy typesafe above hleaf with ⟨-, _, hresult⟩ | ⟨hclash, herror⟩
    · cases he.symm.trans hresult
    · refine .refused ?_ hclash
      rw [compositeValue_of_not_mappings hleaf, herror]
  · -- no members
    intro above members p q _
    refine .merged (.mapping members p) (by rw [compositeValue, compositeMembers]) ?_
    intro path hpath
    cases path with
    | nil => exact not_conflict_nil hpath
    | cons key path =>
      obtain ⟨_, _, hvalue, -⟩ := hpath
      cases hvalue
  · -- a new key
    intro key value rest above members hnew ih p q hsource
    obtain ⟨hkey, hrest⟩ := distinct_cons hsource
    refine .cons hkey (fun others => by rw [compositeMembers, hnew]) ?_ (ih p q hrest)
    exact fun old hold => absurd (hnew.symm.trans hold) (by simp)
  · -- a key whose values do not go together
    intro key value rest above members old hfound merged e he ih p q hsource
    exact .stop hfound (ih hsource.2.1) (he ▸ Option.some_ne_none e)
  · -- a key whose values go together
    intro key value rest above members old hfound merged put hnone ih ihRest p q hsource
    obtain ⟨hkey, hrest⟩ := distinct_cons hsource
    refine .cons hkey (fun others => ?_) (fun other hother path => ?_) (ihRest p q hrest)
    · rw [compositeMembers, hfound]
      simp only [merged] at hnone ⊢
      rw [hnone]
    · obtain rfl := Option.some.inj (hfound.symm.trans hother)
      exact (ih hsource.2.1).not_conflict hnone

/-- A composition of two mappings fails exactly if they are in conflict. It reports their first
conflict, and has by then merged what the source has before it. -/
theorem composite_stops (hsource : source.isMapping = true) (htarget : target.isMapping = true)
    (hkeys : source.HasDistinctKeys) :
    Stops policy typesafe source target (target.composite source policy typesafe) := by
  have hcomposite : ∀ {other : Node}, other.isMapping = true →
      target.composite other policy typesafe = compositeValue policy typesafe other [] target := by
    intro other hother
    rw [composite, hother, htarget, Bool.and_self, if_pos rfl]
  rw [hcomposite hsource]
  cases compositeValue_ends policy typesafe source [] target hkeys with
  | merged result hresult hfree =>
    refine ⟨iff_of_false ?_ ?_, fun e he => ?_⟩
    · rw [hresult]
      exact not_not_intro rfl
    · exact not_exists.2 hfree
    · rw [hresult] at he
      cases he
  | refused _ hclash => exact absurd ⟨hsource, htarget⟩ hclash.1
  | stopped key path value old result hvalue hold hclash hbefore hresult hpart =>
    have hconflict : Conflict policy typesafe source target (key :: path) :=
      ⟨value, old, hvalue, hold, hclash⟩
    obtain ⟨later, hlater⟩ := paths_eq_before hvalue
    refine ⟨iff_of_true ?_ ⟨_, hconflict⟩, fun e he => ?_⟩
    · rw [hresult]
      exact Option.some_ne_none _
    · rw [hresult] at he ⊢
      obtain rfl := Option.some.inj he
      refine ⟨key :: path, value, old, ⟨hvalue, hold, hclash, ⟨later, hlater⟩, hbefore⟩, rfl, ?_, ?_⟩
      · unfold CompositePolicy.refusal
        split <;> rfl
      · rw [hcomposite rfl, hpart]

/-- A layer that gives a value another type, behind one that it adds and in front of one that could not
be merged either. -/
def clashingDocument : Node :=
  let place : Provenance := .fileStart "c.bst"
  .mapping [("config", .mapping [("jobs", .scalar (.int 4) place),
      ("debug", .scalar (.string "yes") place)] place),
    ("kind", .sequence [] place)] place

theorem clashingDocument_hasDistinctKeys : clashingDocument.HasDistinctKeys := by
  simp [clashingDocument, HasDistinctKeys, MembersHaveDistinctKeys, ItemsHaveDistinctKeys, Keyed.keys]

/-- The layer is refused for its first conflict only, when `jobs` is already in the document. -/
theorem plainDocument_stops : ∃ composed,
    plainDocument.composite clashingDocument .arrayAppend true = composed ∧
      Stops .arrayAppend true clashingDocument plainDocument composed ∧
      composed.error = some (.typeConflict ["config", "debug"] .boolean .string) ∧
      (composed.result.at? ["config"]).map (fun config => Keyed.keys config.members) =
        some ["debug", "env", "jobs"] :=
  ⟨_, rfl, composite_stops rfl rfl clashingDocument_hasDistinctKeys, rfl, rfl⟩

end Ends

end Node

end BuildGraph
