import BuildGraph.Proofs.Graph.Sorted
import BuildGraph.Proofs.Load.Discovered
import BuildGraph.Proofs.Load.Kind
import BuildGraph.Proofs.Resolved.Sharing
import BuildGraph.Proofs.Stack.Acyclic
import BuildGraph.Proofs.Variant.Known

/-!
# Every element that is followed is there

A discovery finds an element for every declared dependency, whatever the variant, so the search misses
none. The table that is committed has elements for all resolved dependencies, and every expansion
keeps it so: what it makes depends on siblings, which it makes as well, and on what the stack depended
on before. So no element is missing when the tree is collected.
-/

namespace BuildGraph

/-- Whether an element is one of the table in the variant that the pool has it in, as the expansions
leave it, or is what an expansion made of an embed of a stack. -/
inductive Element.Arises (archs : Architectures) (elements : Elements) (pool : Pool)
    (committed : Elements) : Element → Prop
  | committed {entry : Configuration} {e chosen final : Element} :
    pool.find? e.name = some entry → elements.find? e.name = some e →
    e.choose entry.variant = .ok chosen → chosen.ExpandsTo final →
    Arises archs elements pool committed final
  | made {stack e : Element} {embeds : List Embed} {embed : Embed} :
    committed.find? stack.name = some stack → stack.isStack = true →
    Embed.readAll stack.data = .ok embeds → embed ∈ embeds →
    embed.Makes archs stack (embeds.map Embed.name) e → Arises archs elements pool committed e

/-- Whether every pass of a resolution finds the elements that it follows dependencies to. -/
structure Project.Covers (archs : Architectures) (elements : Elements) (target : String)
    (variant : Option String) : Prop where
  known : (elements.find? target).isSome
  /-- What the search may follow, in whatever variants. -/
  searched : elements.Closed
  /-- What the expansions follow, whichever of them are done, and the stacks that they are of. -/
  expanded : ∀ pool committed names expanded, elements.resolve target variant = .ok pool →
    elements.commit pool.toList = .ok committed →
    committed.expandAll archs names = .ok expanded → expanded.Complete ∧
      ∀ name ∈ (committed.reachable target).filter committed.isStack, (expanded.find? name).isSome
  /-- What the collection follows, and where each element that it reaches comes from. -/
  collected : ∀ pool committed expanded, elements.checkRequests target variant = .ok () →
    elements.resolve target variant = .ok pool → elements.commit pool.toList = .ok committed →
    committed.expandStacks archs target = .ok expanded →
    (expanded.sortDependencies (expanded.reachable target)).Complete ∧
      ∀ n, (expanded.sortDependencies (expanded.reachable target)).Reaches target n →
        ∃ (e : Element) (deps : List Dependency), (expanded.sortDependencies (expanded.reachable target)).find? n =
          some { e with deps } ∧ deps.Perm e.deps ∧ e.Arises archs elements pool committed

namespace Elements

variable {archs : Architectures} {elements committed expanded : Elements}

theorem Complete.find?_of_reaches (h : elements.Complete) {m n : String}
    (known : (elements.find? m).isSome) (hn : elements.Reaches m n) : (elements.find? n).isSome := by
  rcases hn.cases_tail with rfl | ⟨k, -, hlead⟩
  · exact known
  · exact Roster.find?_isSome_iff.2 (h k n hlead)

theorem Preserves.of_reaches {p : String → Prop} (h : elements.Preserves p) {m n : String} (hm : p m)
    (hn : elements.Reaches m n) : p n := by
  induction hn with
  | refl => exact hm
  | tail _ hlead ih =>
    obtain ⟨e, he, rfl, dep, hdep, rfl⟩ := leadsTo_iff_mem.1 hlead
    exact h e.name e (Roster.find?_name_of_mem he) ih dep hdep

/-- A committed element depends on declared dependencies, and one that is not committed on none. -/
theorem commit_complete {cs : List Configuration} (closed : elements.Closed)
    (unresolved : ∀ e ∈ elements.toList, e.deps = []) (distinct : (Named.names cs).Nodup)
    (listed : ∀ c ∈ cs, elements.Listed c) (h : elements.commit cs = .ok committed) :
    committed.Complete := by
  intro m n hn
  obtain ⟨e, he, rfl, dep, hdep, rfl⟩ := leadsTo_iff_mem.1 hn
  have hfound : committed.find? e.name = some e := Roster.find?_name_of_mem he
  obtain ⟨old, hold⟩ := Option.isSome_iff_exists.1
    ((isSome_commit_iff h).1 (Option.isSome_iff_exists.2 ⟨e, hfound⟩))
  refine Roster.find?_isSome_iff.1 ((isSome_commit_iff h).2 (closed dep ?_))
  by_cases hn : e.name ∈ Named.names cs
  · obtain ⟨c, hc, hname⟩ := List.mem_map.1 hn
    rw [← hname] at hold hfound
    obtain ⟨chosen, hchosen, hcommitted⟩ := commit_find? distinct hc hold h
    obtain rfl := Option.some.inj (hcommitted.symm.trans hfound)
    obtain ⟨data, -, rfl⟩ := Configuration.commitTo_eq_ok_iff.1 hchosen
    exact (listed c hc).mem_declaredDeps hdep
  · rw [commit_find?_of_not_mem hn h] at hfound
    rw [unresolved e (Named.mem_of_find? hfound)] at hdep
    cases hdep

theorem expandAll_complete {names : List String} (complete : elements.Complete)
    (h : elements.expandAll archs names = .ok expanded) : expanded.Complete := by
  induction names generalizing elements with
  | nil => exact Except.ok.inj h ▸ complete
  | cons name rest ih =>
    simp only [expandAll, bind_eq_ok_iff] at h
    obtain ⟨⟨mid, made⟩, hstep, _, -, hrest⟩ := h
    refine ih ?_ hrest
    cases hstack : elements.find? name with
    | none =>
      simp only [expandStack, hstack, Except.ok.injEq, Prod.mk.injEq] at hstep
      exact hstep.1 ▸ complete
    | some stack =>
      obtain ⟨embeds, new, hexpands, -⟩ := (expandStack_eq_ok_iff hstack).1 hstep
      exact hexpands.complete (Named.mem_of_find? hstack) complete

theorem expandAll_find?_isSome {names : List String} {n : String}
    (h : elements.expandAll archs names = .ok expanded) (hn : (elements.find? n).isSome) :
    (expanded.find? n).isSome := by
  induction names generalizing elements with
  | nil => exact Except.ok.inj h ▸ hn
  | cons name rest ih =>
    simp only [expandAll, bind_eq_ok_iff] at h
    obtain ⟨⟨mid, made⟩, hstep, _, -, hrest⟩ := h
    exact ih hrest (expandStack_find?_isSome hstep hn)

theorem relists_sortDependencies (elements : Elements) (names : List String) :
    elements.Relists (elements.sortDependencies names) where
  unknown _ := find?_sortDependencies_none
  known n e he := by
    obtain ⟨deps, hfound, hperm⟩ := find?_sortDependencies_perm names he
    exact ⟨deps, hperm, hfound⟩

theorem Complete.sortDependencies (h : elements.Complete) (names : List String) :
    (elements.sortDependencies names).Complete := by
  intro m n hn
  rw [(relists_sortDependencies elements names).leadsTo_eq] at hn
  rw [names_sortDependencies]
  exact h m n hn

/-- Collecting a name of a complete table comes upon no name without an element. -/
theorem neverMisses_collect (complete : elements.Complete) (path : List String) (name : String)
    (built : Built) (known : (elements.find? name).isSome) :
    NeverMisses (elements.collect path name built) := by
  refine collect.induct elements
    (fun path name built => (elements.find? name).isSome →
      NeverMisses (elements.collect path name built))
    (fun path deps built => (∀ dep ∈ deps, (elements.find? dep.name).isSome) →
      NeverMisses (elements.collectAll path deps built)) ?_ ?_ ?_ ?_ ?_ ?_ path name built known
  · -- built before
    intro path name built r hfound _
    rw [collect, hfound]
    exact neverMisses_ok _
  · -- never loaded
    intro path name built hnew hunknown hknown
    rw [hunknown] at hknown
    cases hknown
  · -- reached from itself
    intro path name built hnew element helement hpath _
    rw [collect]
    simp only [hnew]
    split
    · next hnone => exact absurd (helement.symm.trans hnone) (by simp)
    · rw [if_pos hpath]
      exact neverMisses_error id
  · -- built now, after what it needs
    intro path name built hnew element helement hpath ih _
    have hneeds : ∀ dep ∈ element.deps, (elements.find? dep.name).isSome := by
      intro dep hdep
      exact Roster.find?_isSome_iff.2 (complete name dep.name (leadsTo_of_find? helement hdep))
    rw [collect_of_find? hnew helement (by simpa using hpath)]
    exact (Source.neverMisses_take _ _).bind fun _ _ => (ih hneeds).bind fun _ _ =>
      (neverMisses_access _).bind fun _ _ => neverMisses_ok _
  · intro path built _
    rw [collectAll]
    exact neverMisses_ok _
  · intro path built dep rest ihFirst ihRest hdeps
    obtain ⟨hdep, hrest⟩ := List.forall_mem_cons.1 hdeps
    rw [collectAll]
    exact (ihFirst hdep).bind fun _ _ => (ihRest _ hrest).bind fun _ _ => neverMisses_ok _

end Elements

theorem Project.Reads.deps {project : Project} {file : String} {e : Element}
    (h : project.Reads file e) : e.deps = [] := by
  obtain ⟨_, _, _, _, _, -, -, -, -, -, hread, -⟩ := h
  simp only [Element.ofDocument, bind_eq_ok_iff, pure_eq_ok_iff] at hread
  obtain ⟨_, -, _, -, _, -, _, -, rfl⟩ := hread
  rfl

/-- What a discovery asks for and cannot find is a file. -/
theorem Discovery.FailsWith.not_isNeverLoaded {project : Project} {d : Discovery}
    {request : FileRequest} {e : LoadError} (h : FailsWith project d request e) :
    ¬e.IsNeverLoaded := by
  cases h with
  | name h => exact Element.neverMisses_nameOfFile _ _ e h
  | conflict => exact id
  | missing => exact id
  | read h => exact Element.neverMisses_load _ _ _ _ _ _ e h

theorem Discovery.neverMisses_discover {project : Project} (requests : List FileRequest)
    (d : Discovery) : NeverMisses (discover project requests d).result := by
  induction requests, d using discover_induction project with
  | done d =>
    rw [discover.eq_def]
    exact neverMisses_ok _
  | skip request rest d name hname hbegun ih =>
    rw [discover_of_begun hname hbegun]
    exact ih
  | load request rest d element fragments hloads ih =>
    rw [discover_of_loads hloads]
    exact ih
  | fail request rest d e ticks hfail hwith _ =>
    rw [hfail]
    exact neverMisses_error hwith.not_isNeverLoaded

/-- A discovery finds every declared dependency: its file is reached from the target as well. -/
theorem Discovery.fromTarget_closed {project : Project} {target : String} {elements : Elements}
    (h : (fromTarget project target).result = .ok elements) : elements.Closed := by
  obtain ⟨hpreorder, -, hreads⟩ := (discovers_of_discover _ _ elements h).preorder found_empty
  have hreached : ∀ file, file ∈ elements.toList.map Element.filename ↔
      Relation.ReflTransGen (Preorder.Edge project.Leads) (Path.normalize target) file := by
    intro file
    rw [hpreorder.mem_iff fun _ _ _ => Project.Leads.unique]
    simp only [List.map_cons, List.map_nil, List.mem_singleton, exists_eq_left]
  intro dep hdep
  obtain ⟨e, he, hdecl⟩ := List.mem_flatMap.1 hdep
  obtain ⟨g, -, hfound⟩ := find?_of_declaredDeps hreads
    (fun _ he _ hedge => (hreached _).2 (((hreached _).1 (List.mem_map_of_mem he)).tail hedge))
    he hdecl
  exact Option.isSome_iff_exists.2 ⟨g, hfound⟩

namespace Project

variable {archs : Architectures} {elements committed expanded : Elements} {target : String}
  {variant : Option String} {pool : Pool}

theorem arises_of_reaches {e₀ : Element} (known : elements.find? target = some e₀)
    (valid : elements.checkRequests target variant = .ok ())
    (h : elements.resolve target variant = .ok pool)
    (hcommit : elements.commit pool.toList = .ok committed)
    (hexpand : committed.expandStacks archs target = .ok expanded) (complete : expanded.Complete)
    {n : String} (hreach : expanded.Reaches target n) :
    ∃ e, expanded.find? n = some e ∧ e.Arises archs elements pool committed := by
  cases hn : elements.find? n with
  | some e =>
    -- in the table, so it was reached through the choice of variants already
    have hcommitted : committed.Reaches target n := by
      have hpreserves := Elements.expandStacks_preserves
        (fun n => Elements.isSome_commit_iff hcommit) hexpand
      exact hpreserves.of_reaches (fun _ => .refl) hreach (Option.isSome_iff_exists.2 ⟨e, hn⟩)
    obtain ⟨entry, f, chosen, hentry, hf, -, hchosen, hfound⟩ :=
      Elements.committed_of_reaches known valid h hcommit hcommitted
    obtain rfl : f.name = n := Named.name_of_find? hf
    obtain ⟨final, hfinal, hexpands⟩ := Elements.expandStacks_expandsTo hfound
      (Elements.mem_reachable_iff.2 hcommitted) hexpand
    exact ⟨final, hfinal, .committed hentry hf hchosen hexpands⟩
  | none =>
    have htarget : (expanded.find? target).isSome := Elements.expandAll_find?_isSome hexpand
      ((Elements.isSome_commit_iff hcommit).2 (Option.isSome_iff_exists.2 ⟨e₀, known⟩))
    obtain ⟨e, he⟩ := Option.isSome_iff_exists.1 (complete.find?_of_reaches htarget hreach)
    rcases Elements.find?_cases_of_expandAll ((Elements.nodup_reachable target).filter _)
      (fun _ => Elements.isSome_of_mem_stacks) hexpand he with
      hold | ⟨name, hname, stack, hstack, embeds, hembeds, embed, hembed, hmakes⟩
    · rw [Elements.isSome_commit_iff hcommit, hn] at hold
      cases hold
    · obtain ⟨found, hfound, hkind⟩ := Elements.exists_of_mem_stacks hname
      obtain rfl := Option.some.inj (hstack.symm.trans hfound)
      obtain rfl : stack.name = name := Named.name_of_find? hstack
      exact ⟨e, he, .made hstack hkind hembeds hembed hmakes⟩

/-- A table in which every declared dependency is on one of its elements covers every resolution. -/
theorem covers {e₀ : Element} (known : elements.find? target = some e₀) (closed : elements.Closed)
    (unresolved : ∀ e ∈ elements.toList, e.deps = []) :
    Covers archs elements target variant := by
  have hcomplete : ∀ pool committed, elements.resolve target variant = .ok pool →
      elements.commit pool.toList = .ok committed → committed.Complete :=
    fun pool committed h hcommit => Elements.commit_complete closed unresolved (Roster.nodup pool)
      (Elements.resolve_listed known h) hcommit
  refine ⟨Option.isSome_iff_exists.2 ⟨e₀, known⟩, closed, ?_, ?_⟩
  · intro pool committed names expanded h hcommit hexpand
    refine ⟨Elements.expandAll_complete (hcomplete pool committed h hcommit) hexpand, ?_⟩
    exact fun name hname =>
      Elements.expandAll_find?_isSome hexpand (Elements.isSome_of_mem_stacks hname)
  · intro pool committed expanded valid h hcommit hexpand
    have hexpanded : expanded.Complete :=
      Elements.expandAll_complete (hcomplete pool committed h hcommit) hexpand
    refine ⟨hexpanded.sortDependencies _, fun n hn => ?_⟩
    rw [(Elements.relists_sortDependencies expanded _).reaches_eq] at hn
    obtain ⟨e, he, harises⟩ := arises_of_reaches known valid h hcommit hexpand hexpanded hn
    obtain ⟨deps, hsorted, hperm⟩ :=
      Elements.find?_sortDependencies_perm (expanded.reachable target) he
    exact ⟨e, deps, hsorted, hperm, harises⟩

theorem neverMisses_resolve (h : Covers archs elements target variant) :
    NeverMisses (resolve archs elements target variant) := by
  refine (elements.neverMisses_checkRequests target variant).bind fun _ hcheck => ?_
  refine NeverMisses.bind ?_ fun committed hchoose => ?_
  · exact (Elements.neverMisses_resolve h.searched target variant).bind fun _ _ =>
      Elements.neverMisses_commit _ _
  obtain ⟨pool, hpool, hcommit⟩ := bind_eq_ok_iff.1 hchoose
  refine (Elements.neverMisses_expandAll archs committed _).bind fun expanded hexpand => ?_
  refine (expanded.neverMisses_checkCircular _).bind fun _ _ => ?_
  obtain ⟨hcomplete, hreached⟩ := h.collected pool committed expanded hcheck hpool hcommit hexpand
  obtain ⟨e, deps, hfound, -⟩ := hreached target .refl
  exact (Elements.neverMisses_collect hcomplete [] target [] (Option.isSome_iff_exists.2
    ⟨_, hfound⟩)).bind fun _ _ => neverMisses_ok _

end Project

/-- No load fails because an element was never loaded: all that a load may follow is there, in
whatever variants. -/
theorem load_known (workspace : Workspace) (options : Options) :
    NeverMisses (load workspace options).result ∧
      ∀ elements target,
        (Discovery.fromTarget (options.projectIn workspace) options.target).result = .ok elements →
        Element.nameOfFile (Path.normalize options.target) none = .ok target →
        Project.Covers options.archs elements target options.variant := by
  have hcovers : ∀ elements target,
      (Discovery.fromTarget (options.projectIn workspace) options.target).result = .ok elements →
      Element.nameOfFile (Path.normalize options.target) none = .ok target →
      Project.Covers options.archs elements target options.variant := by
    intro elements target hfound hname
    obtain ⟨e, known⟩ := Option.isSome_iff_exists.1 (Discovery.fromTarget_isSome hfound hname)
    have hreads := (Discovery.fromTarget_reads hfound).2
    exact Project.covers known (Discovery.fromTarget_closed hfound)
      fun e he => (hreads e he).deps
  refine ⟨?_, hcovers⟩
  rw [load]
  split
  · exact neverMisses_error id
  · split
    · exact neverMisses_error id
    · exact (Discovery.neverMisses_discover _ _).bind fun elements hfound =>
        (Element.neverMisses_nameOfFile _ _).bind fun target hname =>
          Project.neverMisses_resolve (hcovers elements target hfound hname)

/-- A stack with an embed: the search finds the stack, and the collection finds the embed as well. -/
theorem bundleWorkspace_known :
    (Discovery.fromTarget (Options.projectIn { target := "s.bst" } bundleWorkspace) "s.bst").result =
      .ok bundleTable ∧ Project.Covers {} bundleTable "s" none := by
  have hfound : (Discovery.fromTarget (Options.projectIn { target := "s.bst" } bundleWorkspace)
      "s.bst").result = .ok bundleTable := bundleWorkspace_project none ▸ bundleFiles_discovered
  exact ⟨hfound, (load_known bundleWorkspace { target := "s.bst" }).2 bundleTable "s" hfound
    bundleElement_loads.name⟩

end BuildGraph
