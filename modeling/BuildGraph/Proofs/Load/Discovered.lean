import BuildGraph.Load
import BuildGraph.Proofs.Element.Effective
import BuildGraph.Proofs.Graph.Preorder
import BuildGraph.Proofs.Load.Discovery
import BuildGraph.Proofs.Project.Reads

/-!
# The files of a load

A discovery begins the files that are reached from the target through declared dependencies, in the
order of a recursive depth-first walk, each once, and finds one element for each of them. The names
that dependencies go by are then as good as the files.
-/

namespace BuildGraph

/-- Whether a file declares dependencies on the files `next`, in that order. -/
def Project.Leads (project : Project) (file : String) (next : List String) : Prop :=
  ∃ e, project.Reads file e ∧ e.declaredDeps.filterMap Dependency.filename = next

theorem Project.Leads.unique {project : Project} {file : String} {next next' : List String}
    (h : project.Leads file next) (h' : project.Leads file next') : next = next' := by
  obtain ⟨e, hread, rfl⟩ := h
  obtain ⟨e', hread', rfl⟩ := h'
  rw [hread.unique hread']

/-- What a discovery from a target finds when it begins the files `ticks`. -/
structure Discovered (project : Project) (target : String) (ticks : List String)
    (elements : Elements) : Prop where
  /-- The files are in the order of the recursive walk. -/
  preorder : Preorder project.Leads [Path.normalize target] [] ticks
  /-- There is no other such order. -/
  only : ∀ listed, Preorder project.Leads [Path.normalize target] [] listed → listed = ticks
  reached : ∀ file, file ∈ ticks ↔
    Relation.ReflTransGen (Preorder.Edge project.Leads) (Path.normalize target) file
  /-- There is one element for each of the files. -/
  files : elements.toList.map Element.filename = ticks
  reads : ∀ e ∈ elements.toList, project.Reads e.filename e
  named : ∀ e ∈ elements.toList, Path.stem? e.filename = some e.name
  unambiguous : ∀ f ∈ ticks, ∀ g ∈ ticks, Path.stem? f = Path.stem? g → f = g
  /-- The name of a dependency leads to the element of its file. -/
  addressed : ∀ e ∈ elements.toList, ∀ dep ∈ e.declaredDeps, ∃ g,
    dep.filename = some g.filename ∧ elements.find? dep.name = some g
  distinct : ∀ e ∈ elements.toList, ∀ variant, (Named.names (e.depsFor variant)).Nodup

namespace Element

/-- The files that an element asks for are those of its dependencies. -/
theorem map_fileRequests {e : Element} (h : e.NamesFiles) :
    e.fileRequests.map (fun request => Path.normalize request.file) =
      e.declaredDeps.filterMap Dependency.filename := by
  rw [fileRequests, List.map_filterMap]
  refine List.filterMap_congr fun dep hdep => ?_
  obtain ⟨file, hfile, hnormal, -⟩ := (h.of_mem hdep).file
  simp [hfile, hnormal]

end Element

namespace Discovery

variable {project : Project}

/-- What holds of a discovery at any time. -/
structure Found (project : Project) (d : Discovery) : Prop where
  files : d.elements.toList.map Element.filename = d.begun
  reads : ∀ e ∈ d.elements.toList, project.Reads e.filename e
  sound : Include.Sound project.files d.fragments

theorem found_empty : Found project {} :=
  ⟨rfl, fun _ hnil => absurd hnil List.not_mem_nil, Include.sound_nil⟩

theorem Loads.reads {d : Discovery} {request : FileRequest} {element : Element}
    {fragments : Fragments} (h : Loads project d request element fragments)
    (hsound : Include.Sound project.files d.fragments) :
    project.Reads (Path.normalize request.file) element ∧
      Include.Sound project.files fragments := by
  obtain ⟨text, htext, hload⟩ := h.read
  exact Element.load_reads hload htext (Element.stem?_of_nameOfFile h.name) hsound

theorem Found.load {d : Discovery} {request : FileRequest} {element : Element}
    {fragments : Fragments} (h : Found project d) (hload : Loads project d request element fragments) :
    Found project
      ⟨d.begun ++ [Path.normalize request.file], d.elements.put element, fragments⟩ := by
  obtain ⟨hreads, hsound⟩ := hload.reads h.sound
  have hlist : (d.elements.put element).toList = d.elements.toList ++ [element] :=
    Roster.toList_put_of_free hload.free
  refine ⟨?_, ?_, hsound⟩
  · rw [hlist, List.map_append, h.files, List.map_singleton, hreads.filename]
  · exact Roster.forall_mem_put (hreads.filename ▸ hreads) h.reads

/-- A discovery goes on with the pre-order of what is asked for. -/
theorem Discovers.preorder {requests : List FileRequest} {d : Discovery} {elements : Elements}
    (h : Discovers project requests d elements) (hfound : Found project d) :
    Preorder project.Leads (requests.map fun request => Path.normalize request.file) d.begun
      (elements.toList.map Element.filename) ∧
    (discover project requests d).ticks = elements.toList.map Element.filename ∧
    ∀ e ∈ elements.toList, project.Reads e.filename e := by
  induction h with
  | done =>
    rw [discover.eq_def]
    exact ⟨hfound.files ▸ .done, hfound.files.symm, hfound.reads⟩
  | skip hname hbegun _ ih =>
    obtain ⟨hpreorder, hticks, hreads⟩ := ih hfound
    rw [discover_of_begun hname hbegun]
    exact ⟨.skip (List.contains_iff_mem.1 hbegun) hpreorder, hticks, hreads⟩
  | @load request rest d elements element fragments hload _ ih =>
    obtain ⟨hpreorder, hticks, hreads⟩ := ih (hfound.load hload)
    have hread := (hload.reads hfound.sound).1
    have hnew : Path.normalize request.file ∉ d.begun := by simpa using hload.new
    rw [List.map_append, Element.map_fileRequests hread.namesFiles] at hpreorder
    -- the files of the element are walked over before those asked for earlier
    obtain ⟨mid, hown, hrest⟩ := hpreorder.of_append
    rw [discover_of_loads hload]
    exact ⟨.visit hnew ⟨element, hread, rfl⟩ hown hrest, hticks, hreads⟩

/-- No file is begun twice, whether the discovery succeeds or not. -/
theorem nodup_ticks (requests : List FileRequest) (d : Discovery) :
    d.begun.Nodup → (discover project requests d).ticks.Nodup := by
  have happend : ∀ {begun : List String} {file : String}, file ∉ begun → begun.Nodup →
      (begun ++ [file]).Nodup := fun hnew hbegun =>
    (List.perm_append_singleton _ _).nodup_iff.2 (List.nodup_cons.2 ⟨hnew, hbegun⟩)
  induction requests, d using discover_induction project with
  | done d =>
    intro hbegun
    rw [discover.eq_def]
    exact hbegun
  | skip request rest d name hname hold ih =>
    intro hbegun
    rw [discover_of_begun hname hold]
    exact ih hbegun
  | load request rest d element fragments hload ih =>
    intro hbegun
    rw [discover_of_loads hload]
    exact ih (happend (by simpa using hload.new) hbegun)
  | fail request rest d e ticks hfail _ hticks =>
    intro hbegun
    rw [hfail]
    rcases hticks with rfl | ⟨hnew, rfl⟩
    · exact hbegun
    · exact happend hnew hbegun

/-- What a discovery from a target finds is read off the files that it begins. -/
theorem fromTarget_reads {target : String} {elements : Elements}
    (h : (fromTarget project target).result = .ok elements) :
    (fromTarget project target).ticks = elements.toList.map Element.filename ∧
      ∀ e ∈ elements.toList, project.Reads e.filename e :=
  ((discovers_of_discover _ _ elements h).preorder found_empty).2

section Table

variable {elements : Elements} (hreads : ∀ e ∈ elements.toList, project.Reads e.filename e)

include hreads

/-- The element of a file is found under the stem of the file. -/
theorem find?_of_stem {e : Element} (he : e ∈ elements.toList) {n : String}
    (hstem : Path.stem? e.filename = some n) : elements.find? n = some e := by
  have hname : Named.name e = n := Option.some.inj ((hreads e he).stem.symm.trans hstem)
  exact hname ▸ Roster.find?_name_of_mem he

theorem eq_of_stem {f g : String} (hf : f ∈ elements.toList.map Element.filename)
    (hg : g ∈ elements.toList.map Element.filename) (h : Path.stem? f = Path.stem? g) : f = g := by
  obtain ⟨e, he, rfl⟩ := List.mem_map.1 hf
  obtain ⟨e', he', rfl⟩ := List.mem_map.1 hg
  have hstem := (hreads e he).stem
  have hfound := find?_of_stem hreads he hstem
  rw [find?_of_stem hreads he' (h ▸ hstem)] at hfound
  rw [Option.some.inj hfound]

/-- Where the files that a file leads to are in the table as well, a dependency goes by the name of the
element of its file. -/
theorem find?_of_declaredDeps
    (hclosed : ∀ e ∈ elements.toList, ∀ file, Preorder.Edge project.Leads e.filename file →
      file ∈ elements.toList.map Element.filename)
    {e : Element} (he : e ∈ elements.toList) {dep : Dependency} (hdep : dep ∈ e.declaredDeps) :
    ∃ g, dep.filename = some g.filename ∧ elements.find? dep.name = some g := by
  obtain ⟨file, hfile, -, hname⟩ := ((hreads e he).namesFiles.of_mem hdep).file
  have hedge : Preorder.Edge project.Leads e.filename file :=
    ⟨_, ⟨e, hreads e he, rfl⟩, List.mem_filterMap.2 ⟨dep, hdep, hfile⟩⟩
  obtain ⟨g, hg, rfl⟩ := List.mem_map.1 (hclosed e he file hedge)
  exact ⟨g, hfile, find?_of_stem hreads hg hname⟩

end Table

/-- Different files are of different elements, so dependencies on different files have different
names. -/
theorem nodup_names_of_filenames {elements : Elements} {deps : List Dependency}
    (hdeps : (deps.map Dependency.filename).Nodup)
    (haddressed : ∀ dep ∈ deps, ∃ g : Element,
      dep.filename = some g.filename ∧ elements.find? dep.name = some g) :
    (Named.names deps).Nodup := by
  refine List.pairwise_map.2 ((List.pairwise_map.1 hdeps).imp_of_mem ?_)
  intro dep dep' hdep hdep' hne hsame
  obtain ⟨g, hfile, hg⟩ := haddressed dep hdep
  obtain ⟨g', hfile', hg'⟩ := haddressed dep' hdep'
  rw [show dep.name = dep'.name from hsame, hg', Option.some.injEq] at hg
  exact hne (by rw [hfile, hfile', hg])

/-- Discovery lists the files of the target in the order of the recursive walk, each once, and what
it finds is one element for each of them. -/
theorem fromTarget_discovered (project : Project) (target : String) :
    (fromTarget project target).ticks.Nodup ∧
    (∀ variant, (project.load target variant).ticks = (fromTarget project target).ticks) ∧
    ∀ elements, (fromTarget project target).result = .ok elements →
      Discovered project target (fromTarget project target).ticks elements := by
  refine ⟨nodup_ticks _ _ List.nodup_nil, fun _ => rfl, fun elements h => ?_⟩
  obtain ⟨hpreorder, hticks, hreads⟩ :=
    (discovers_of_discover _ _ elements h).preorder found_empty
  have hunique : ∀ file next next', project.Leads file next → project.Leads file next' →
      next = next' := fun _ _ _ => Project.Leads.unique
  have hreached : ∀ file, file ∈ elements.toList.map Element.filename ↔
      Relation.ReflTransGen (Preorder.Edge project.Leads) (Path.normalize target) file := by
    intro file
    rw [hpreorder.mem_iff hunique]
    simp only [List.map_cons, List.map_nil, List.mem_singleton, exists_eq_left]
  have haddressed : ∀ e ∈ elements.toList, ∀ dep ∈ e.declaredDeps, ∃ g,
      dep.filename = some g.filename ∧ elements.find? dep.name = some g :=
    fun _ he _ => find?_of_declaredDeps hreads
      (fun _ he _ hedge => (hreached _).2 (((hreached _).1 (List.mem_map_of_mem he)).tail hedge)) he
  rw [fromTarget, hticks]
  exact {
    preorder := hpreorder
    only := fun listed h' => h'.unique hunique hpreorder
    reached := hreached
    files := rfl
    reads := hreads
    named := fun e he => (hreads e he).stem
    unambiguous := fun f hf g hg => eq_of_stem hreads hf hg
    addressed := haddressed
    distinct := fun e he => Element.nodup_names_depsFor (nodup_names_of_filenames
      (hreads e he).namesFiles.base.distinct
      fun dep hdep => haddressed e he dep (List.mem_append_left _ hdep)) }

end Discovery

/-- Two elements that depend on each other are found once each. -/
theorem switchedFiles_ordered :
    Discovered ⟨switchedFiles, {}⟩ "a.bst" ["a.bst", "b.bst"] switchedTable := by
  have h := (Discovery.fromTarget_discovered ⟨switchedFiles, {}⟩ "a.bst").2.2 switchedTable
    switchedFiles_discovered
  have hticks : (Discovery.fromTarget ⟨switchedFiles, {}⟩ "a.bst").ticks = ["a.bst", "b.bst"] :=
    h.files.symm
  exact hticks ▸ h

end BuildGraph
