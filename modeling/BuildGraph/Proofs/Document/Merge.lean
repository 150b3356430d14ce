import BuildGraph.Document.Composite
import BuildGraph.Document.Select
import BuildGraph.Graph.Unseen
import BuildGraph.Proofs.Document.Distinct

/-!
# What a composition comes to

A composition that is not strict and succeeds, read off path by path. Where both sides have a node at
a path these were composed (`Meets`); elsewhere the result has what one of the two sides has
(`compositeValue_at?`). `Node.MergesTo` says the same in terms of the two documents alone.
-/

namespace BuildGraph

namespace Node

/-- The node that a path of keys leads to. -/
def at? (node : Node) (path : List String) : Option Node :=
  node.select? (path.map .member)

/-- Whether a source has a node at a path that is not merged with the one of the target: it is no
mapping, or the target has null there. -/
def Supersedes (source target : Node) (path : List String) : Prop :=
  ∃ value, source.at? path = some value ∧
    (value.isMapping = false ∨ ∃ old, target.at? path = some old ∧ old.isNull = true)

/-- Whether a node is another one with members added. The members that it has keep their keys and
their order. -/
inductive Extends : Node → Node → Prop
  | self (node : Node) : Extends node node
  | mapping {members more : List (String × Node)} (p : Provenance) :
    Keyed.keys members <+: Keyed.keys more → Extends (.mapping members p) (.mapping more p)

/-- What a source comes to on a target, unless it must not override anything. -/
structure MergesTo (policy : CompositePolicy) (source target result : Node) : Prop where
  /-- The source takes the place of what it is not merged with. -/
  superseded : ∀ path value, source.Supersedes target path → source.at? path = some value →
    (policy = .arrayAppend → value.isSequence = true →
      ∀ old, target.at? path = some old → old.isSequence = false) →
    result.at? path = some value
  /-- Sequences are joined if they are to be appended. -/
  appended : policy = .arrayAppend → ∀ path items p extra q,
    target.at? path = some (.sequence items p) → source.at? path = some (.sequence extra q) →
    result.at? path = some (.sequence (items ++ extra) p)
  /-- What the target lacks is taken from the source. -/
  added : ∀ path value, source.at? path = some value → target.at? path = none →
    result.at? path = some value
  /-- The target stays as it is where it is not superseded, and gains members at most. -/
  kept : ∀ path old, target.at? path = some old →
    (∀ above, above <+: path → ¬source.Supersedes target above) →
    ∃ new, result.at? path = some new ∧ old.Extends new
  /-- Mappings on both sides are merged: the new members come behind those of the target. -/
  merged : ∀ path members p sources q, target.at? path = some (.mapping members p) →
    source.at? path = some (.mapping sources q) →
    ∃ more, result.at? path = some (.mapping more p) ∧
      Keyed.keys more = Keyed.keys members ++ unseen (Keyed.keys sources) (Keyed.keys members)

section Path

variable {node source target : Node} {key : String} {path : List String}

@[simp] theorem at?_nil : node.at? [] = some node := rfl

theorem at?_cons : node.at? (key :: path) = (node.get? key).bind (·.at? path) := rfl

/-- Paths lead into mappings only. -/
theorem at?_eq_none (h : node.isMapping = false) : node.at? (key :: path) = none := by
  cases node with
  | mapping => cases h
  | scalar => rfl
  | sequence => rfl

theorem at?_append (node : Node) (path rest : List String) :
    node.at? (path ++ rest) = (node.at? path).bind (·.at? rest) := by
  induction path generalizing node with
  | nil => rfl
  | cons first path ih =>
    rw [List.cons_append, at?_cons, at?_cons, Option.bind_assoc]
    exact Option.bind_congr fun child _ => ih child

theorem at?_append_eq_none {rest : List String} (hnode : ∀ value, node.at? path = some value →
    value.isMapping = false) : node.at? (path ++ key :: rest) = none := by
  rw [at?_append]
  cases hvalue : node.at? path with
  | none => rfl
  | some value => exact at?_eq_none (hnode value hvalue)

theorem HasDistinctKeys.at? {value : Node} (h : node.HasDistinctKeys)
    (hvalue : node.at? path = some value) : value.HasDistinctKeys := by
  induction path generalizing node with
  | nil => exact Option.some.inj hvalue ▸ h
  | cons key path ih =>
    obtain ⟨child, hchild, hvalue⟩ := Option.bind_eq_some_iff.1 hvalue
    exact ih (h.get? hchild) hvalue

theorem Supersedes.cons {child other : Node} (h : child.Supersedes other path)
    (hsource : source.get? key = some child) (htarget : target.get? key = some other) :
    source.Supersedes target (key :: path) := by
  obtain ⟨value, hvalue, hcase⟩ := h
  refine ⟨value, by rw [at?_cons, hsource]; exact hvalue, hcase.imp_right ?_⟩
  rintro ⟨old, hold, hnull⟩
  exact ⟨old, by rw [at?_cons, htarget]; exact hold, hnull⟩

/-- Below what is superseded one of the two sides has nothing. -/
theorem Supersedes.below {above : List String} (h : source.Supersedes target above)
    (habove : above <+: path) (hne : above ≠ path) :
    source.at? path = none ∨ target.at? path = none := by
  obtain ⟨rest, rfl⟩ := habove
  cases rest with
  | nil => simp at hne
  | cons first rest =>
    obtain ⟨value, hvalue, hleaf | ⟨old, hold, hnull⟩⟩ := h
    · refine .inl (at?_append_eq_none fun node hnode => ?_)
      obtain rfl := Option.some.inj (hvalue.symm.trans hnode)
      exact hleaf
    · refine .inr (at?_append_eq_none fun node hnode => ?_)
      obtain rfl := Option.some.inj (hold.symm.trans hnode)
      cases old with
      | mapping => cases hnull
      | scalar => rfl
      | sequence => rfl

end Path

section Composite

variable {policy : CompositePolicy} {typesafe : Bool} {path : List String}

/-- What a member comes to, from the values that source and target have under its key. -/
inductive Meets (policy : CompositePolicy) (typesafe : Bool) (path : List String) :
    Option Node → Option Node → Option Node → Prop
  | untouched (old : Option Node) : Meets policy typesafe path none old old
  | new (value : Node) : Meets policy typesafe path (some value) none (some value)
  | both {value old result : Node} :
    compositeValue policy typesafe value path old = ⟨result, none⟩ →
    Meets policy typesafe path (some value) (some old) (some result)

/-- A value that is combined with another one, and overriding is allowed. -/
theorem combine_spec {source target result : Node} (hpolicy : policy ≠ .strict)
    (h : policy.combine typesafe path source target = .ok result) :
    (source.isMapping = false ∨ target.isNull = true) ∧
      (result = source ∧
          (policy = .arrayAppend → source.isSequence = true → target.isSequence = false) ∨
        policy = .arrayAppend ∧ ∃ items p extra q, target = .sequence items p ∧
          source = .sequence extra q ∧ result = .sequence (items ++ extra) p) := by
  unfold CompositePolicy.combine at h
  rw [if_neg hpolicy] at h
  split at h
  · cases h
  · next hfits =>
    have hsuperseded : source.isMapping = false ∨ target.isNull = true := by
      cases hsource : source.isMapping <;> cases htarget : target.isNull <;>
        simp [hsource, htarget] at hfits ⊢
    refine ⟨hsuperseded, ?_⟩
    split at h
    · next items p extra q =>
      exact .inr ⟨rfl, items, p, extra, q, rfl, rfl, (Except.ok.inj h).symm⟩
    · next hother =>
      refine .inl ⟨(Except.ok.inj h).symm, fun happend hsource => ?_⟩
      cases target with
      | scalar => rfl
      | mapping => rfl
      | sequence items p =>
        cases source with
        | sequence extra q => exact (hother items p extra q happend rfl rfl).elim
        | scalar => cases hsource
        | mapping => cases hsource

/-- A composition of two values either merges two mappings or combines the values. -/
theorem compositeValue_cases {source target result : Node}
    (h : compositeValue policy typesafe source path target = ⟨result, none⟩) :
    (∃ sources q members p merged, source = .mapping sources q ∧ target = .mapping members p ∧
      result = .mapping merged p ∧
      compositeMembers policy typesafe sources path members = ⟨merged, none⟩) ∨
    (source.isMapping = true → target.isMapping = false) ∧
      policy.combine typesafe path source target = .ok result := by
  unfold compositeValue at h
  split at h
  · next sources q members p =>
    obtain ⟨hresult, hnone⟩ := Composed.mk.inj h
    exact .inl ⟨sources, q, members, p, _, rfl, rfl, hresult.symm, congrArg (Composed.mk _) hnone⟩
  · next hother =>
    split at h
    · next node hnode =>
      obtain rfl := (Composed.mk.inj h).1
      refine .inr ⟨fun hsource => ?_, hnode⟩
      cases source with
      | scalar => cases hsource
      | sequence => cases hsource
      | mapping sources q =>
        cases target with
        | scalar => rfl
        | sequence => rfl
        | mapping members p => exact (hother sources q members p rfl rfl).elim
    · cases (Composed.mk.inj h).2

/-- Members are composed key by key: those of the target stay in front, in their order. -/
theorem compositeMembers_spec {sources members merged : List (String × Node)}
    (hsources : (Keyed.keys sources).Nodup)
    (h : compositeMembers policy typesafe sources path members = ⟨merged, none⟩) :
    Keyed.keys merged =
        Keyed.keys members ++ unseen (Keyed.keys sources) (Keyed.keys members) ∧
      ∀ key, Meets policy typesafe (path ++ [key]) (sources.lookup key) (members.lookup key)
        (merged.lookup key) := by
  induction sources generalizing members with
  | nil =>
    rw [compositeMembers] at h
    obtain rfl := (Composed.mk.inj h).1
    exact ⟨by simp [Keyed.keys, unseen], fun key => .untouched _⟩
  | cons first rest ih =>
    obtain ⟨k, value⟩ := first
    have hcons : Keyed.keys ((k, value) :: rest) = k :: Keyed.keys rest := rfl
    rw [hcons, List.nodup_cons] at hsources
    obtain ⟨hk, hrest⟩ := hsources
    -- what the first member is put in place of, and as what
    obtain ⟨put, hput, h⟩ : ∃ put,
        Meets policy typesafe (path ++ [k]) (some value) (members.lookup k) (some put) ∧
        compositeMembers policy typesafe rest path (Keyed.insert k put members) =
          ⟨merged, none⟩ := by
      rw [compositeMembers] at h
      split at h
      · next hnone => exact ⟨value, hnone ▸ .new value, h⟩
      · next old hold =>
        dsimp only at h
        split at h
        · cases (Composed.mk.inj h).2
        · next hnone => exact ⟨_, hold ▸ .both (congrArg (Composed.mk _) hnone), h⟩
    obtain ⟨hkeys, hmeets⟩ := ih hrest h
    refine ⟨?_, fun key => ?_⟩
    · rw [hkeys, Keyed.keys_insert, hcons]
      by_cases hmem : k ∈ Keyed.keys members
      · rw [if_pos hmem, unseen_cons_of_mem hmem]
      · rw [if_neg hmem, unseen_cons_of_not_mem hmem, unseen_append_of_not_mem _ hk,
          List.append_assoc, List.singleton_append]
    · have hkey := hmeets key
      rw [Keyed.lookup_insert] at hkey
      by_cases heq : key = k
      · subst heq
        have hnone : rest.lookup key = none := Keyed.lookup_eq_none_iff.2 hk
        rw [if_pos rfl, hnone] at hkey
        cases hfound : merged.lookup key with
        | none => rw [hfound] at hkey; cases hkey
        | some found =>
          rw [hfound] at hkey
          cases hkey
          rw [List.lookup_cons, beq_self_eq_true]
          exact hput
      · have hne : (key == k) = false := by simpa using heq
        rw [if_neg heq] at hkey
        rw [List.lookup_cons, hne]
        exact hkey

/-- What a composition has at a path: what the two nodes there are composed to, or what one of the
sides has there. -/
theorem compositeValue_at? {source target result : Node} (hpolicy : policy ≠ .strict)
    (hsource : source.HasDistinctKeys)
    (h : compositeValue policy typesafe source path target = ⟨result, none⟩) (down : List String) :
    (∃ value old new, source.at? down = some value ∧ target.at? down = some old ∧
      result.at? down = some new ∧ value.HasDistinctKeys ∧
      compositeValue policy typesafe value (path ++ down) old = ⟨new, none⟩) ∨
    (result.at? down = source.at? down ∧ (target.at? down = none ∨
      ∃ above, above <+: down ∧ above ≠ down ∧ source.Supersedes target above)) ∨
    result.at? down = target.at? down ∧ source.at? down = none := by
  induction down generalizing source target result path with
  | nil =>
    rw [← List.append_nil path] at h
    exact .inl ⟨source, target, result, rfl, rfl, rfl, hsource, h⟩
  | cons key down ih =>
    rcases compositeValue_cases h with
      ⟨sources, q, members, p, merged, rfl, rfl, rfl, hmembers⟩ | ⟨-, hcombine⟩
    · have hmeets := (compositeMembers_spec hsource.1 hmembers).2 key
      have hchild : ∀ value, sources.lookup key = some value → value.HasDistinctKeys :=
        fun value hvalue => hsource.get? (show (mapping sources q).get? key = some value from hvalue)
      simp only [at?_cons, get?, Node.members]
      generalize hfrom : sources.lookup key = value at hmeets hchild ⊢
      generalize hto : members.lookup key = old at hmeets ⊢
      generalize merged.lookup key = new at hmeets ⊢
      cases hmeets with
      | untouched => exact .inr (.inr ⟨rfl, rfl⟩)
      | new => exact .inr (.inl ⟨rfl, .inl rfl⟩)
      | both hvalue =>
        rcases ih (hchild _ rfl) hvalue with hboth | ⟨hresult, hside⟩ | hside
        · rw [List.append_assoc] at hboth
          exact .inl hboth
        · refine .inr (.inl ⟨hresult, hside.imp_right ?_⟩)
          rintro ⟨above, habove, hne, hsupersedes⟩
          exact ⟨key :: above, by simpa using habove, by simpa using hne,
            hsupersedes.cons hfrom hto⟩
        · exact .inr (.inr hside)
    · -- nothing lies below a node that is combined but what the source has there
      obtain ⟨hleaf, hresult⟩ := combine_spec hpolicy hcombine
      refine .inr (.inl ⟨?_, .inr ⟨[], List.nil_prefix, by simp, source, rfl,
        hleaf.imp_right fun hnull => ⟨target, rfl, hnull⟩⟩⟩)
      rcases hresult with ⟨rfl, -⟩ | ⟨-, items, p, extra, q, rfl, rfl, rfl⟩
      · rfl
      · rfl

section At

variable {source target result value old : Node} {down : List String} (hpolicy : policy ≠ .strict)
  (hsource : source.HasDistinctKeys)
  (h : compositeValue policy typesafe source path target = ⟨result, none⟩)

include hpolicy hsource h

theorem compositeValue_at?_both (hfrom : source.at? down = some value)
    (hto : target.at? down = some old) : ∃ new, result.at? down = some new ∧
      value.HasDistinctKeys ∧
      compositeValue policy typesafe value (path ++ down) old = ⟨new, none⟩ := by
  rcases compositeValue_at? hpolicy hsource h down with
    ⟨value', old', new, hfrom', hto', hnew, hkeys, hcomposed⟩ |
    ⟨-, hnone | ⟨above, habove, hne, hsupersedes⟩⟩ | ⟨-, hnone⟩
  · obtain rfl := Option.some.inj (hfrom.symm.trans hfrom')
    obtain rfl := Option.some.inj (hto.symm.trans hto')
    exact ⟨new, hnew, hkeys, hcomposed⟩
  · exact absurd (hto.symm.trans hnone) (by simp)
  · rcases hsupersedes.below habove hne with hnone | hnone
    · exact absurd (hfrom.symm.trans hnone) (by simp)
    · exact absurd (hto.symm.trans hnone) (by simp)
  · exact absurd (hfrom.symm.trans hnone) (by simp)

theorem compositeValue_at?_source (hfrom : source.at? down = some value)
    (hto : target.at? down = none) : result.at? down = some value := by
  rcases compositeValue_at? hpolicy hsource h down with ⟨_, old, _, -, hold, -⟩ | ⟨hresult, -⟩ |
    ⟨-, hnone⟩
  · exact absurd (hto.symm.trans hold) (by simp)
  · exact hresult.trans hfrom
  · exact absurd (hfrom.symm.trans hnone) (by simp)

theorem compositeValue_at?_target (hfrom : source.at? down = none)
    (hto : target.at? down = some old) :
    result.at? down = some old ∨ ∃ above, above <+: down ∧ source.Supersedes target above := by
  rcases compositeValue_at? hpolicy hsource h down with ⟨value, _, _, hvalue, -⟩ |
    ⟨-, hnone | ⟨above, habove, -, hsupersedes⟩⟩ | ⟨hresult, -⟩
  · exact absurd (hfrom.symm.trans hvalue) (by simp)
  · exact absurd (hto.symm.trans hnone) (by simp)
  · exact .inr ⟨above, habove, hsupersedes⟩
  · exact .inl (hresult.trans hto)

end At

theorem compositeValue_of_composite {source target result : Node}
    (h : target.composite source policy typesafe = ⟨result, none⟩) :
    compositeValue policy typesafe source [] target = ⟨result, none⟩ := by
  rw [composite] at h
  split at h
  · exact h
  · cases (Composed.mk.inj h).2

theorem compositeValue_mergesTo {source target result : Node} (hpolicy : policy ≠ .strict)
    (hsource : source.HasDistinctKeys)
    (h : compositeValue policy typesafe source path target = ⟨result, none⟩) :
    MergesTo policy source target result := by
  have hboth : ∀ {value old down}, source.at? down = some value → target.at? down = some old →
      ∃ new, result.at? down = some new ∧ value.HasDistinctKeys ∧
        compositeValue policy typesafe value (path ++ down) old = ⟨new, none⟩ :=
    compositeValue_at?_both hpolicy hsource h
  refine ⟨?superseded, ?appended, ?added, ?kept, ?merged⟩
  case superseded =>
    rintro down value ⟨value', hfrom', hleaf⟩ hfrom hjoin
    obtain rfl := Option.some.inj (hfrom.symm.trans hfrom')
    cases hto : target.at? down with
    | none => exact compositeValue_at?_source hpolicy hsource h hfrom hto
    | some old =>
      obtain ⟨new, hnew, -, hcomposed⟩ := hboth hfrom hto
      rcases compositeValue_cases hcomposed with ⟨_, _, _, _, _, rfl, rfl, -⟩ | ⟨-, hcombine⟩
      · -- two mappings are merged, so the source would not supersede the target here
        rcases hleaf with hleaf | ⟨old, hold, hnull⟩
        · cases hleaf
        · obtain rfl := Option.some.inj (hto.symm.trans hold)
          cases hnull
      · rcases (combine_spec hpolicy hcombine).2 with ⟨rfl, -⟩ | ⟨happend, _, _, _, _, rfl, rfl, -⟩
        · exact hnew
        · exact absurd (hjoin happend rfl _ hto) (by simp [isSequence])
  case appended =>
    intro happend down items p extra q hto hfrom
    obtain ⟨new, hnew, -, hcomposed⟩ := hboth hfrom hto
    rcases compositeValue_cases hcomposed with ⟨_, _, _, _, _, hmapping, -⟩ | ⟨-, hcombine⟩
    · cases hmapping
    · rcases (combine_spec hpolicy hcombine).2 with ⟨-, hother⟩ |
        ⟨-, _, _, _, _, htarget, hextra, rfl⟩
      · exact absurd (hother happend rfl) (by simp [isSequence])
      · cases htarget
        cases hextra
        exact hnew
  case added => exact fun _ _ => compositeValue_at?_source hpolicy hsource h
  case kept =>
    intro down old hto hfree
    cases hfrom : source.at? down with
    | none =>
      rcases compositeValue_at?_target hpolicy hsource h hfrom hto with
        hsame | ⟨above, habove, hsupersedes⟩
      · exact ⟨old, hsame, .self old⟩
      · exact absurd hsupersedes (hfree above habove)
    | some value =>
      obtain ⟨new, hnew, hkeys, hcomposed⟩ := hboth hfrom hto
      rcases compositeValue_cases hcomposed with ⟨_, _, _, p, _, rfl, rfl, rfl, hmembers⟩ |
        ⟨-, hcombine⟩
      · exact ⟨_, hnew, .mapping p ⟨_, (compositeMembers_spec hkeys.1 hmembers).1.symm⟩⟩
      · have hleaf := (combine_spec hpolicy hcombine).1
        refine (hfree down List.prefix_rfl ⟨value, hfrom, hleaf.imp_right fun hnull => ?_⟩).elim
        exact ⟨old, hto, hnull⟩
  case merged =>
    intro down members p sources q hto hfrom
    obtain ⟨new, hnew, hkeys, hcomposed⟩ := hboth hfrom hto
    rcases compositeValue_cases hcomposed with ⟨_, _, _, _, merged, hsources, htarget, rfl,
      hmembers⟩ | ⟨hleaf, -⟩
    · cases hsources
      cases htarget
      exact ⟨merged, hnew, (compositeMembers_spec hkeys.1 hmembers).1⟩
    · exact absurd (hleaf rfl) (by simp [isMapping])

/-- What a composition comes to that may override and succeeds. -/
theorem composite_mergesTo {source target result : Node} (hpolicy : policy ≠ .strict)
    (hsource : source.HasDistinctKeys)
    (h : target.composite source policy typesafe = ⟨result, none⟩) :
    MergesTo policy source target result :=
  compositeValue_mergesTo hpolicy hsource (compositeValue_of_composite h)

/-- A document with a list, a mapping and a value that is not set. -/
def plainDocument : Node :=
  let place : Provenance := .fileStart "a.bst"
  .mapping [("flags", .sequence [.scalar (.int 1) place] place),
    ("config", .mapping [("debug", .scalar (.bool true) place), ("env", .scalar .null place)] place),
    ("kind", .scalar (.string "manual") place)] place

/-- A layer that adds to the list and sets the value. -/
def layerDocument : Node :=
  let place : Provenance := .fileStart "b.bst"
  .mapping [("config", .mapping [("jobs", .scalar (.int 4) place),
      ("env", .mapping [("HOME", .scalar (.string "/") place)] place),
      ("debug", .scalar (.bool false) place)] place),
    ("flags", .sequence [.scalar (.int 2) place] place)] place

/-- With the layer on it the document has both items in its list, and under `config` the members of
the layer, of which only `jobs` comes behind its own. -/
theorem plainDocument_mergesTo : ∃ result,
    plainDocument.composite layerDocument .arrayAppend true = ⟨result, none⟩ ∧
      MergesTo .arrayAppend layerDocument plainDocument result ∧
      (result.at? ["config"]).map (fun config => Keyed.keys config.members) =
        some ["debug", "env", "jobs"] ∧
      (result.at? ["flags"]).map (fun flags => flags.items.map Node.place) =
        some [.fileStart "a.bst", .fileStart "b.bst"] := by
  have hkeys : layerDocument.HasDistinctKeys := by
    simp [layerDocument, HasDistinctKeys, MembersHaveDistinctKeys, ItemsHaveDistinctKeys, Keyed.keys]
  exact ⟨_, rfl, composite_mergesTo (by decide) hkeys rfl, rfl, rfl⟩

end Composite

end Node

end BuildGraph
