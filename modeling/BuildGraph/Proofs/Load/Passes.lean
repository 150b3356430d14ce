import BuildGraph.Load
import BuildGraph.Proofs.Graph.Order
import BuildGraph.Proofs.Graph.Reach
import BuildGraph.Proofs.Resolved.Collect
import BuildGraph.Proofs.Stack.Depends
import BuildGraph.Proofs.Variant.Consistency

/-!
# The passes of a load

After the search an element goes through a commit, the expansion of stacks, the ordering of
dependencies and the collection of the tree. No pass leads to an element that the choice of variants
does not lead to, so everything in the tree that was in the table went through all of them.
-/

namespace BuildGraph

/-- Whether an element is a chosen one after the expansion of stacks. -/
def Element.ExpandsTo (chosen final : Element) : Prop :=
  if chosen.isStack then ∃ embeds, Embed.readAll chosen.data = .ok embeds ∧
    final = Stack.withEmbeds chosen embeds
  else final = chosen

theorem Element.ExpandsTo.name {chosen final : Element} (h : chosen.ExpandsTo final) :
    final.name = chosen.name := by
  rw [ExpandsTo] at h
  split at h
  · obtain ⟨embeds, -, rfl⟩ := h
    rfl
  · rw [h]

theorem Element.ExpandsTo.variant {chosen final : Element} (h : chosen.ExpandsTo final) :
    final.variant = chosen.variant := by
  rw [ExpandsTo] at h
  split at h
  · obtain ⟨embeds, -, rfl⟩ := h
    rfl
  · rw [h]

/-- Whether a resolved element is what the passes make of an element in a variant. -/
def Resolved.StandsFor (r : Resolved) (e : Element) (variant : Option String) : Prop :=
  ∃ chosen final deps, e.choose variant = .ok chosen ∧ chosen.ExpandsTo final ∧
    deps.Perm final.deps ∧ r.MadeFrom { final with deps }

namespace Project

variable {archs : Architectures} {elements : Elements} {target : String} {variant : Option String}
  {root : Resolved}

/-- The passes of a resolution that succeeds. -/
theorem resolve_eq_ok_iff : resolve archs elements target variant = .ok root ↔
    elements.checkRequests target variant = .ok () ∧
    ∃ pool committed expanded built, elements.resolve target variant = .ok pool ∧
      elements.commit pool.toList = .ok committed ∧
      committed.expandStacks archs target = .ok expanded ∧
      expanded.checkCircular [target] = .ok () ∧
      (expanded.sortDependencies (expanded.reachable target)).collect [] target [] =
        .ok (root, built) := by
  simp only [resolve, Elements.chooseVariants, bind_eq_ok_iff, pure_eq_ok_iff]
  constructor
  · rintro ⟨_, hcheck, committed, ⟨pool, hpool, hcommit⟩, expanded, hexpand, _, hcircular,
      ⟨found, built⟩, hcollect, rfl⟩
    exact ⟨hcheck, pool, committed, expanded, built, hpool, hcommit, hexpand, hcircular, hcollect⟩
  · rintro ⟨hcheck, pool, committed, expanded, built, hpool, hcommit, hexpand, hcircular, hcollect⟩
    exact ⟨(), hcheck, committed, ⟨pool, hpool, hcommit⟩, expanded, hexpand, (), hcircular,
      (root, built), hcollect, rfl⟩

end Project

namespace Elements

variable {elements committed expanded : Elements} {pool : Pool} {archs : Architectures}
  {target n : String} {variant : Option String} {p : String → Prop}

/-- Everything that is reached from the target through committed variants has a configuration. -/
theorem resolve_isSome_of_reaches {e : Element} (known : elements.find? target = some e)
    (valid : elements.checkRequests target variant = .ok ())
    (h : elements.resolve target variant = .ok pool)
    (hcommit : elements.commit pool.toList = .ok committed)
    (hreach : committed.Reaches target n) : (pool.find? n).isSome := by
  induction hreach with
  | refl => exact resolve_isSome known h
  | @tail m n _ hstep ih =>
    obtain ⟨entry, hentry⟩ := Option.isSome_iff_exists.1 ih
    have hname : entry.element = m := Named.name_of_find? hentry
    have hmem : entry ∈ pool.toList := Named.mem_of_find? hentry
    obtain ⟨f, hf, -⟩ := resolve_genuine known valid h entry hmem
    obtain ⟨chosen, hchosen, hfound⟩ := commit_find? pool.nodup hmem hf hcommit
    obtain ⟨data, -, rfl⟩ := Configuration.commitTo_eq_ok_iff.1 hchosen
    obtain ⟨dep, hdep, rfl⟩ := leadsTo_iff.1 hstep
    rw [← hname, depsOf_eq hfound] at hdep
    obtain ⟨-, next, hnext, -⟩ := resolve_meets known h entry hmem dep hdep
    exact Option.isSome_iff_exists.2 ⟨next, hnext⟩

/-- Everything that is reached from the target through committed variants is an element of the table
in the variant of its configuration. -/
theorem committed_of_reaches {e₀ : Element} (known : elements.find? target = some e₀)
    (valid : elements.checkRequests target variant = .ok ())
    (h : elements.resolve target variant = .ok pool)
    (hcommit : elements.commit pool.toList = .ok committed)
    (hreach : committed.Reaches target n) :
    ∃ entry e chosen, pool.find? n = some entry ∧ elements.find? n = some e ∧
      e.Declares entry.variant ∧ e.choose entry.variant = .ok chosen ∧
      committed.find? n = some chosen := by
  obtain ⟨entry, hentry⟩ := Option.isSome_iff_exists.1
    (resolve_isSome_of_reaches known valid h hcommit hreach)
  have hmem : entry ∈ pool.toList := Named.mem_of_find? hentry
  obtain rfl : entry.element = n := Named.name_of_find? hentry
  obtain ⟨e, he, hdecl, hdeps⟩ := resolve_genuine known valid h entry hmem
  obtain ⟨chosen, hchosen, hfound⟩ := commit_find? pool.nodup hmem he hcommit
  rw [Configuration.commitTo_eq_choose hdeps] at hchosen
  exact ⟨entry, e, chosen, hentry, he, hdecl, hchosen, hfound⟩

theorem expandStacks_expandsTo {chosen : Element} (hchosen : committed.find? n = some chosen)
    (hn : n ∈ committed.reachable target)
    (h : committed.expandStacks archs target = .ok expanded) :
    ∃ final, expanded.find? n = some final ∧ chosen.ExpandsTo final := by
  obtain ⟨hstack, hother⟩ := expandStacks_find? hchosen h
  by_cases hkind : chosen.isStack = true
  · obtain ⟨embeds, hembeds, hfound⟩ := hstack ⟨hn, hkind⟩
    refine ⟨_, hfound, ?_⟩
    rw [Element.ExpandsTo, if_pos hkind]
    exact ⟨embeds, hembeds, rfl⟩
  · refine ⟨chosen, hother fun hboth => hkind hboth.2, ?_⟩
    rw [Element.ExpandsTo, if_neg hkind]

/-- What is reached from the target after the stacks are expanded was reached before, unless it came
with the stacks. -/
theorem expandStacks_preserves (hkept : ∀ n, (committed.find? n).isSome ↔ (elements.find? n).isSome)
    (h : committed.expandStacks archs target = .ok expanded) :
    expanded.Preserves fun n => (elements.find? n).isSome → committed.Reaches target n := by
  refine expandAll_preserves ?_ ?_ ?_ h
  · intro n e he hn dep hdep _
    have hreach := hn ((hkept n).1 (Option.isSome_iff_exists.2 ⟨e, he⟩))
    exact hreach.tail (leadsTo_of_find? he hdep)
  · exact fun n hn _ => mem_reachable_iff.1 (List.mem_filter.1 hn).1
  · intro n hnone hn
    have hsome := (hkept n).2 hn
    rw [hnone] at hsome
    cases hsome

theorem Preserves.sortDependencies (h : elements.Preserves p) (names : List String) :
    (elements.sortDependencies names).Preserves p := by
  intro n e he hn dep hdep
  obtain ⟨old, deps, hfound, hperm, rfl⟩ := find?_of_sortDependencies he
  exact h n old hfound hn dep (hperm.mem_iff.1 hdep)

/-- What dependencies preserve holds in a whole tree if it holds at its root. -/
theorem Preserves.of_within (h : elements.Preserves p) {root r : Resolved}
    (hgrows : elements.Grows root) (hroot : p root.name) (hr : r.Within root) : p r.name := by
  have hstep : ∀ {s t : Resolved} {q : Dependency → Bool} {e : Element},
      elements.find? s.name = some e → p s.name → t.name ∈ (e.deps.filter q).map Dependency.name →
      p t.name := by
    intro s t q e he hs ht
    obtain ⟨dep, hdep, hname⟩ := List.mem_map.1 ht
    exact hname ▸ h _ e he hs dep (List.mem_filter.1 hdep).1
  induction hr with
  | self => exact hroot
  | @build s t ht _ ih =>
    obtain ⟨e, he, hmade⟩ := hgrows.self
    exact ih (hgrows.of_build ht) (hstep he hroot (hmade.build ▸ List.mem_map_of_mem ht))
  | @runtime s t ht _ ih =>
    obtain ⟨e, he, hmade⟩ := hgrows.self
    exact ih (hgrows.of_runtime ht) (hstep he hroot (hmade.runtime ▸ List.mem_map_of_mem ht))

/-- What stands in the tree of a target and was in the table was reached before the expansions. -/
theorem reaches_of_within {cs : List Configuration} {root r : Resolved}
    (hcommit : elements.commit cs = .ok committed)
    (hexpand : committed.expandStacks archs target = .ok expanded)
    (hgrows : (expanded.sortDependencies (expanded.reachable target)).Grows root)
    (hnamed : root.name = target) (hr : r.Within root) (known : (elements.find? r.name).isSome) :
    committed.Reaches target r.name := by
  have hpreserves := (expandStacks_preserves (fun n => isSome_commit_iff hcommit)
    hexpand).sortDependencies (expanded.reachable target)
  refine hpreserves.of_within hgrows (fun _ => ?_) hr known
  exact hnamed ▸ .refl

end Elements

/-- Everything in the tree of a target that is an element of the table stands for that element in
the variant that the search has it in. -/
theorem Project.resolve_standsFor {archs : Architectures} {elements : Elements} {target : String}
    {variant : Option String} {e₀ : Element} {root : Resolved}
    (known : elements.find? target = some e₀)
    (h : Project.resolve archs elements target variant = .ok root) :
    root.name = target ∧ ∃ pool, elements.resolve target variant = .ok pool ∧
      ∀ r : Resolved, r.Within root → ∀ e, elements.find? r.name = some e →
        ∃ entry, pool.find? r.name = some entry ∧ e.Declares entry.variant ∧
          r.StandsFor e entry.variant := by
  obtain ⟨hcheck, pool, committed, expanded, built, hpool, hcommit, hexpand, -, hcollect⟩ :=
    resolve_eq_ok_iff.1 h
  obtain ⟨-, hnamed, hgrows⟩ := Elements.collects [] target [] (fun _ _ hnil => by cases hnil)
    root built hcollect
  refine ⟨hnamed, pool, hpool, fun r hr e he => ?_⟩
  -- the element was reached through the choice of variants already, so it has a configuration
  have hreach : committed.Reaches target r.name := Elements.reaches_of_within hcommit hexpand hgrows
    hnamed hr (Option.isSome_iff_exists.2 ⟨e, he⟩)
  obtain ⟨entry, f, chosen, hentry, hf, hdecl, hchosen, hcommitted⟩ :=
    Elements.committed_of_reaches known hcheck hpool hcommit hreach
  obtain rfl := Option.some.inj (he.symm.trans hf)
  obtain ⟨final, hfinal, hexpands⟩ := Elements.expandStacks_expandsTo hcommitted
    (Elements.mem_reachable_iff.2 hreach) hexpand
  obtain ⟨deps, hsorted, hperm⟩ :=
    Elements.find?_sortDependencies_perm (expanded.reachable target) hfinal
  obtain ⟨made, hfound, hmade⟩ := hgrows r hr
  obtain rfl := Option.some.inj (hsorted.symm.trans hfound)
  exact ⟨entry, hentry, hdecl, chosen, final, deps, hchosen, hexpands, hperm, hmade⟩

/-- The project that a load with some options reads. -/
def Options.projectIn (options : Options) (workspace : Workspace) : Project :=
  ⟨workspace.filesFrom options.directory, options.archs⟩

section Load

variable {workspace : Workspace} {options : Options}

/-- A load of a relative path loads from the project. -/
theorem load_eq (htarget : (options.target = "" || Path.isAbsolute options.target) = false)
    (hdirectory : options.directory ≠ "") :
    load workspace options =
      (options.projectIn workspace).load options.target options.variant := by
  rw [load, if_neg (by simp [htarget]), if_neg hdirectory]
  rfl

/-- A load gives what resolving the target comes to, among the elements that are discovered from it. -/
theorem load_eq_ok_iff {root : Resolved} :
    (load workspace options).result = .ok root ↔
      (options.target = "" || Path.isAbsolute options.target) = false ∧ options.directory ≠ "" ∧
        ∃ elements name,
          (Discovery.fromTarget (options.projectIn workspace) options.target).result = .ok elements ∧
          Element.nameOfFile (Path.normalize options.target) none = .ok name ∧
          Project.resolve options.archs elements name options.variant = .ok root := by
  have hproject : ((options.projectIn workspace).load options.target options.variant).result =
      .ok root ↔ ∃ elements name,
        (Discovery.fromTarget (options.projectIn workspace) options.target).result = .ok elements ∧
        Element.nameOfFile (Path.normalize options.target) none = .ok name ∧
        Project.resolve options.archs elements name options.variant = .ok root := by
    simp only [Project.load, bind_eq_ok_iff, exists_and_left]
    rfl
  constructor
  · intro h
    by_cases htarget : options.target = "" || Path.isAbsolute options.target
    · rw [load, if_pos htarget] at h
      cases h
    by_cases hdirectory : options.directory = ""
    · rw [load, if_neg htarget, if_pos hdirectory] at h
      cases h
    have hrelative := Bool.eq_false_iff.2 htarget
    exact ⟨hrelative, hdirectory, hproject.1 (load_eq hrelative hdirectory ▸ h)⟩
  · rintro ⟨htarget, hdirectory, hresolve⟩
    rw [load_eq htarget hdirectory]
    exact hproject.2 hresolve

end Load

end BuildGraph
