import BuildGraph.Proofs.Load.Discovery
import BuildGraph.Proofs.Load.Passes
import BuildGraph.Proofs.Variant.Target

/-!
# The target of a load

A load gives the element of the target's file in one of its variants, and with the dependencies of
that variant. It is the variant that was asked for unless a dependency that is found on the way asks
for the target by name in another one, and its request displaces the target.
-/

namespace BuildGraph

/-- The dependencies of an element in a variant, those of a stack on its embeds among them. -/
def Element.depsIn (e : Element) (variant : Option String) : Except LoadError (List Dependency) := do
  let chosen ← e.choose variant
  if chosen.isStack then
    let embeds ← Embed.readAll chosen.data
    pure (Stack.withEmbeds chosen embeds).deps
  else pure chosen.deps

/-- Whether a resolved element is an element of a table in one of its variants, with what it depends
on in that variant. -/
structure Resolved.Realizes (r : Resolved) (e : Element) : Prop where
  name : r.name = e.name
  needs : ∃ deps, e.depsIn r.variant = .ok deps ∧
    (r.build.map Resolved.name).Perm ((deps.filter Dependency.isBuild).map Dependency.name) ∧
    (r.runtime.map Resolved.name).Perm ((deps.filter Dependency.isRuntime).map Dependency.name)

theorem Element.ExpandsTo.depsIn {e chosen final : Element} {variant : Option String}
    (h : chosen.ExpandsTo final) (hchosen : e.choose variant = .ok chosen) :
    e.depsIn variant = .ok final.deps := by
  rw [Element.ExpandsTo] at h
  split at h
  · next hstack =>
    obtain ⟨embeds, hembeds, rfl⟩ := h
    simp only [Element.depsIn, hchosen, hstack, hembeds, bind_eq_ok_iff, if_true, pure_eq_ok_iff,
      Except.ok.injEq, exists_eq_left']
  · next hother =>
    subst h
    simp only [Element.depsIn, hchosen, hother, bind_eq_ok_iff, pure_eq_ok_iff, Except.ok.injEq,
      exists_eq_left', Bool.false_eq_true, if_false]

theorem Resolved.StandsFor.realizes {r : Resolved} {e : Element} {variant : Option String}
    (h : r.StandsFor e variant) : r.variant = variant ∧ r.Realizes e := by
  obtain ⟨chosen, final, deps, hchosen, hexpands, hperm, hmade⟩ := h
  have hdeps := hexpands.depsIn hchosen
  have hname : r.name = e.name := calc
    r.name = final.name := hmade.name
    _ = chosen.name := hexpands.name
    _ = e.name := Element.name_of_choose hchosen
  have hvariant : r.variant = variant := calc
    r.variant = final.variant := hmade.variant
    _ = chosen.variant := hexpands.variant
    _ = variant := Element.variant_of_choose hchosen
  refine ⟨hvariant, hname, final.deps, hvariant ▸ hdeps, ?_, ?_⟩
  · rw [hmade.build]
    exact (hperm.filter _).map _
  · rw [hmade.runtime]
    exact (hperm.filter _).map _

/-- What a target resolves to: its element in the variant that the search has it in. -/
theorem Project.resolve_realizes {archs : Architectures} {elements : Elements} {target : String}
    {variant : Option String} {e : Element} {r : Resolved}
    (known : elements.find? target = some e)
    (h : Project.resolve archs elements target variant = .ok r) :
    r.Realizes e ∧ ∃ pool entry, elements.resolve target variant = .ok pool ∧
      pool.find? target = some entry ∧ entry.variant = r.variant ∧
      (entry = Elements.start e variant ∨ elements.Demanded entry) := by
  obtain ⟨hname, pool, hpool, hstands⟩ := Project.resolve_standsFor known h
  obtain ⟨entry, hentry, -, horigin⟩ := Elements.resolve_target known hpool
  obtain ⟨found, hfound, -, hr⟩ := hstands r .self e (hname ▸ known)
  rw [hname] at hfound
  obtain rfl := Option.some.inj (hentry.symm.trans hfound)
  obtain ⟨hvariant, hrealizes⟩ := hr.realizes
  exact ⟨hrealizes, pool, entry, hpool, hentry, hvariant.symm, horigin⟩

/-- A load gives the element of the target's file with the dependencies of the variant it is in. This
is the variant that was asked for exactly if no dependency displaces the target from it, and so in
every load that finds no request for the target in another variant. -/
theorem load_target {workspace : Workspace} {options : Options} {v : String} {r : Resolved}
    (asked : options.variant = some v) (h : (load workspace options).result = .ok r) :
    ∃ elements e pool entry,
      (Discovery.fromTarget ⟨workspace.filesFrom options.directory, options.archs⟩
        options.target).result = .ok elements ∧
      Element.nameOfFile (Path.normalize options.target) none = .ok r.name ∧
      elements.find? r.name = some e ∧ r.Realizes e ∧
      elements.resolve r.name (some v) = .ok pool ∧
      pool.find? r.name = some entry ∧ entry.variant = r.variant ∧
      (r.variant = some v ↔ ¬elements.Displaced pool r.name v) ∧
      ((∀ dep ∈ elements.declaredDeps, dep.name = r.name → ∀ w, dep.variant = some w → w = v) →
        r.variant = some v) := by
  obtain ⟨-, -, elements, name, hfound, hname, hresolve⟩ := load_eq_ok_iff.1 h
  rw [asked] at hresolve
  obtain ⟨e, known⟩ := Option.isSome_iff_exists.1 (Discovery.fromTarget_isSome hfound hname)
  obtain ⟨hrealizes, pool, entry, hpool, hentry, hvariant, horigin⟩ :=
    Project.resolve_realizes known hresolve
  have hnamed : r.name = name := hrealizes.name.trans (Named.name_of_find? known)
  subst hnamed
  have hiff := Elements.variant_eq_iff_not_displaced hentry horigin
  rw [hvariant] at hiff
  refine ⟨elements, e, pool, entry, hfound, hname, known, hrealizes, hpool, hentry, hvariant,
    hiff, fun hothers => hiff.2 ?_⟩
  rintro ⟨-, -, dep, hdep, -, hdepName, w, hw, hne⟩
  exact hne (hothers dep hdep hdepName w hw)

def switchedWorkspace : Workspace :=
  (Workspace.write {} "a.bst" (some switchedText)).write "b.bst" (some switchingText)

/-- The table with the variants that are chosen for it. -/
def switchedChosen : Elements := .ofList [
  { switchedElement with variant := some "y" },
  { switchingElement with deps := switchingElement.baseDeps }]

theorem switchedTable_resolves : ∃ r, Project.resolve {} switchedTable "a" (some "x") = .ok r ∧
    r.name = "a" ∧ r.variant = some "y" := by
  have hcheck : switchedTable.checkRequests "a" (some "x") = .ok () := rfl
  have hchoose : switchedTable.chooseVariants "a" (some "x") = .ok switchedChosen := rfl
  have hexpand : switchedChosen.expandStacks {} "a" = .ok switchedChosen := by decide +kernel
  have hcircular : switchedChosen.checkCircular ["a"] = .ok () := by decide +kernel
  have hcollect : ((switchedChosen.sortDependencies (switchedChosen.reachable "a")).collect [] "a"
      []).toOption.map (fun found => (found.1.name, found.1.variant)) = some ("a", some "y") := by
    decide +kernel
  obtain ⟨found, hfound, hsame⟩ := Option.map_eq_some_iff.1 hcollect
  obtain ⟨hname, hvariant⟩ := Prod.mk.inj hsame
  refine ⟨found.1, ?_, hname, hvariant⟩
  simp only [Project.resolve, bind_eq_ok_iff, pure_eq_ok_iff]
  exact ⟨(), hcheck, _, hchoose, _, hexpand, (), hcircular, found, toOption_eq_some_iff.1 hfound,
    rfl⟩

/-- The request of `b` turns the target into another variant than the one that was asked for. -/
theorem switchedWorkspace_target :
    ∃ r, (load switchedWorkspace { target := "a.bst", variant := some "x" }).result = .ok r ∧
      r.variant = some "y" ∧ ∃ (elements : Elements) (pool : Pool),
        elements.resolve "a" (some "x") = .ok pool ∧ elements.Displaced pool "a" "x" := by
  obtain ⟨r, hr, hname, hvariant⟩ := switchedTable_resolves
  have hproject : Options.projectIn { target := "a.bst", variant := some "x" } switchedWorkspace =
      ⟨switchedFiles, {}⟩ := by
    have hfiles : switchedWorkspace.filesFrom "." = switchedFiles := by decide +kernel
    exact congrArg (Project.mk · {}) hfiles
  have hload :
      (load switchedWorkspace { target := "a.bst", variant := some "x" }).result = .ok r :=
    load_eq_ok_iff.2 ⟨by decide, by decide, switchedTable, "a",
      hproject ▸ switchedFiles_discovered, switchedElement_loads.name, hr⟩
  obtain ⟨elements, -, pool, -, -, -, -, -, hpool, -, -, hiff, -⟩ := load_target rfl hload
  rw [hname] at hpool hiff
  refine ⟨r, hload, hvariant, elements, pool, hpool, ?_⟩
  by_contra hkept
  rw [hvariant] at hiff
  exact absurd (hiff.2 hkept) (by decide)

end BuildGraph
