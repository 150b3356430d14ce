import BuildGraph.Proofs.Variant.Consistency

/-!
# Dependencies in effect

The dependencies in effect in a variant are the base dependencies, each replaced where it stands if the
variant declares a dependency on the same element, and after them the other dependencies of the variant.
As long as neither of the two lists names an element twice, this says it all (`InEffect`).
-/

namespace BuildGraph

namespace Named

variable {α : Type} [Named α] {new xs : List α}

/-- Putting things one after another replaces those that are there where they stand, and appends the
others in their order. -/
theorem foldl_put_eq (hnew : (names new).Nodup) (hxs : (names xs).Nodup) :
    new.foldl (fun xs x => put x xs) xs =
      xs.map (fun y => (find? new (name y)).getD y) ++
        new.filter (fun x => !(names xs).contains (name x)) := by
  induction new generalizing xs with
  | nil => simp [find?]
  | cons x rest ih =>
    obtain ⟨hx, hrest⟩ := List.nodup_cons.1 hnew
    have hlater : find? rest (name x) = none := find?_eq_none_iff.2 hx
    rw [List.foldl_cons, ih hrest (nodup_names_put x hxs), names_put]
    by_cases hmem : name x ∈ names xs
    · rw [if_pos hmem, put_eq_map hmem hxs, List.map_map,
        List.filter_cons_of_neg (by simpa using hmem)]
      congr 1
      refine List.map_congr_left fun y _ => ?_
      rw [Function.comp_apply, find?_cons]
      by_cases hy : name y = name x
      · rw [if_pos hy, if_pos hy.symm, hlater]
        rfl
      · rw [if_neg hy, if_neg (Ne.symm hy)]
    · rw [if_neg hmem, put_of_not_mem hmem, List.map_append, List.append_assoc,
        List.filter_cons_of_pos (by simpa using hmem)]
      congr 1
      · refine List.map_congr_left fun y hy => ?_
        have hne : name x ≠ name y := fun heq => hmem (heq ▸ List.mem_map_of_mem hy)
        rw [find?_cons, if_neg hne]
      · rw [List.map_singleton, hlater, Option.getD_none, List.singleton_append]
        congr 1
        refine List.filter_congr fun y hy => ?_
        have hne : name y ≠ name x := fun heq => hx (heq ▸ List.mem_map_of_mem hy)
        simp [hne]

theorem names_foldl_put (hnew : (names new).Nodup) (hxs : (names xs).Nodup) :
    names (new.foldl (fun xs x => put x xs) xs) =
      names xs ++ (names new).filter (fun n => !(names xs).contains n) := by
  have hkept : names (xs.map fun y => (find? new (name y)).getD y) = names xs := by
    rw [names, List.map_map]
    refine List.map_congr_left fun y _ => ?_
    cases hy : find? new (name y) with
    | none => rw [Function.comp_apply, hy, Option.getD_none]
    | some x => rw [Function.comp_apply, hy, Option.getD_some, name_of_find? hy]
  have hadded : names (new.filter fun x => !(names xs).contains (name x)) =
      (names new).filter fun n => !(names xs).contains n := by
    simp only [names, List.filter_map]
    rfl
  rw [foldl_put_eq hnew hxs, ← hadded, ← hkept]
  exact List.map_append

theorem mem_foldl_put_iff (hnew : (names new).Nodup) (hxs : (names xs).Nodup) {y : α} :
    y ∈ new.foldl (fun xs x => put x xs) xs ↔ y ∈ new ∨ y ∈ xs ∧ name y ∉ names new := by
  rw [foldl_put_eq hnew hxs, List.mem_append, List.mem_map, List.mem_filter]
  constructor
  · rintro (⟨z, hz, rfl⟩ | ⟨hy, -⟩)
    · cases hfound : find? new (name z) with
      | none => exact .inr ⟨hz, find?_eq_none_iff.1 hfound⟩
      | some x => exact .inl (mem_of_find? hfound)
    · exact .inl hy
  · rintro (hy | ⟨hy, hother⟩)
    · have hfound : find? new (name y) = some y := find?_name_of_mem hnew hy
      by_cases hbase : name y ∈ names xs
      · obtain ⟨z, hz, hname⟩ := List.mem_map.1 hbase
        exact .inl ⟨z, hz, by rw [hname, hfound, Option.getD_some]⟩
      · exact .inr ⟨hy, by simpa using hbase⟩
    · exact .inl ⟨y, hy, by rw [find?_eq_none_iff.2 hother, Option.getD_none]⟩

theorem nodup_names_foldl_put (new : List α) (h : (names xs).Nodup) :
    (names (new.foldl (fun xs x => put x xs) xs)).Nodup := by
  induction new generalizing xs with
  | nil => exact h
  | cons x rest ih => exact ih (nodup_names_put x h)

end Named

namespace Dependency

/-- Whether dependencies are those of a base with the own ones of a variant put over them. -/
structure Overrides (own base deps : List Dependency) : Prop where
  /-- The elements that the base depends on come first, in its order, and then the others that the
  variant depends on, in its order. -/
  names : Named.names deps =
    Named.names base ++ (Named.names own).filter (fun n => !(Named.names base).contains n)
  distinct : (Named.names deps).Nodup
  /-- What the variant declares on an element stands, and elsewhere what the base declares. -/
  mem_iff : ∀ dep, dep ∈ deps ↔ dep ∈ own ∨ dep ∈ base ∧ dep.name ∉ Named.names own

variable {own base : List Dependency}

theorem overrides_foldl_put (hown : (Named.names own).Nodup) (hbase : (Named.names base).Nodup) :
    Overrides own base (own.foldl (fun deps dep => Named.put dep deps) base) where
  names := Named.names_foldl_put hown hbase
  distinct := Named.nodup_names_foldl_put own hbase
  mem_iff _ := Named.mem_foldl_put_iff hown hbase

theorem Overrides.unique {deps deps' : List Dependency} (h : Overrides own base deps)
    (h' : Overrides own base deps') : deps = deps' :=
  Named.eq_of_names_eq (h.names.trans h'.names.symm) h'.distinct fun dep hdep =>
    (h'.mem_iff dep).2 ((h.mem_iff dep).1 hdep)

end Dependency

namespace Element

variable {e : Element}

/-- Whether dependencies are those in effect in a variant of an element, or without one. -/
structure InEffect (e : Element) (variant : Option String) (deps : List Dependency) : Prop where
  /-- Those of a variant that the element declares go over its base dependencies. -/
  declared : ∀ v, variant.bind e.variant? = some v → Dependency.Overrides v.deps e.baseDeps deps
  /-- Without a variant, and in one that it does not declare, there is nothing but these. -/
  base : variant.bind e.variant? = none → deps = e.baseDeps

theorem nodup_names_depsFor (h : (Named.names e.baseDeps).Nodup) (variant : Option String) :
    (Named.names (e.depsFor variant)).Nodup := by
  rw [depsFor]
  split
  · exact Named.nodup_names_foldl_put _ h
  · exact h

theorem InEffect.unique {variant : Option String} {deps deps' : List Dependency}
    (h : e.InEffect variant deps) (h' : e.InEffect variant deps') : deps = deps' := by
  cases hv : variant.bind e.variant? with
  | none => rw [h.base hv, h'.base hv]
  | some v => exact (h.declared v hv).unique (h'.declared v hv)

theorem inEffect_depsFor (hbase : (Named.names e.baseDeps).Nodup)
    (hvariants : ∀ v ∈ e.variants, (Named.names v.deps).Nodup) (variant : Option String) :
    e.InEffect variant (e.depsFor variant) where
  declared v hv := by
    obtain ⟨name, -, hname⟩ := Option.bind_eq_some_iff.1 hv
    rw [depsFor, hv]
    exact Dependency.overrides_foldl_put (hvariants v (Named.mem_of_find? hname)) hbase
  base hv := by rw [depsFor, hv]

/-- The dependencies in effect name each element that the base or the variant names once, in the order of
the base and then of the variant, as the variant declares it where it does and else as the base does. No
other list is like this. -/
theorem inEffect_iff_eq_depsFor (hbase : (Named.names e.baseDeps).Nodup)
    (hvariants : ∀ v ∈ e.variants, (Named.names v.deps).Nodup) (variant : Option String)
    (deps : List Dependency) : e.InEffect variant deps ↔ deps = e.depsFor variant := by
  have heffect : e.InEffect variant (e.depsFor variant) := inEffect_depsFor hbase hvariants variant
  constructor
  · exact fun h => h.unique heffect
  · rintro rfl
    exact heffect

/-- An element of which the variant `x` asks for another variant of `lib` and for `docs` besides. -/
def retoldElement : Element :=
  .bare "app" [.between "app" "base" none, .between "app" "lib" none, .between "app" "tool" none] [
    ("x", [.between "app" "docs" none, .between "app" "lib" (some "slim")])]

/-- Its dependency on `lib` is replaced where it stands. -/
theorem retoldElement_inEffect : (Named.names retoldElement.baseDeps).Nodup ∧
    (∀ v ∈ retoldElement.variants, (Named.names v.deps).Nodup) ∧
    retoldElement.InEffect (some "x") [.between "app" "base" none,
      .between "app" "lib" (some "slim"), .between "app" "tool" none, .between "app" "docs" none] := by
  have hbase : (Named.names retoldElement.baseDeps).Nodup := by decide
  have hvariants : ∀ v ∈ retoldElement.variants, (Named.names v.deps).Nodup := by decide
  exact ⟨hbase, hvariants, (inEffect_iff_eq_depsFor hbase hvariants (some "x") _).2 (by decide)⟩

end Element

end BuildGraph
