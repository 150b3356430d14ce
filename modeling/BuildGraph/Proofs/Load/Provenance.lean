import BuildGraph.Proofs.Load.Kind
import BuildGraph.Proofs.Yaml.Nesting

/-!
# Where scalars come from

Every scalar in what a load gives stands in the text of the file that its place names. That file is the
one of the element, which for an embed is that of its stack, or the file of a fragment that it
includes.
-/

namespace BuildGraph

namespace Project

/-- Whether a scalar stands, just as it is, in the text of the file that its place names, and this is
the file of an element or that of a fragment that the element includes. -/
def Supplies (project : Project) (file : String) (s : Scalar) (p : Provenance) : Prop :=
  (p.file = file ∨ project.Includes file p.file) ∧ ∃ text document,
    project.files.lookup p.file = some text ∧ Node.parseDocument text p.file = .ok document ∧
      document.HasScalar s p

variable {project : Project} {file : String}

theorem supplies_of_parseDocument {source text : String} {document : Node}
    (hsource : source = file ∨ project.Includes file source)
    (htext : project.files.lookup source = some text)
    (hparse : Node.parseDocument text source = .ok document) :
    document.AllScalars (project.Supplies file) := by
  intro s p hs
  obtain rfl : p.file = source := Node.isIn_of_parseDocument hparse s p hs
  exact ⟨hsource, text, document, htext, hparse, hs⟩

end Project

/-- Whether a resolved element comes from a file: it stands for the element that the file declares, or
is made of an embed of that. -/
def Resolved.ComesFrom (project : Project) (file : String) (r : Resolved) : Prop :=
  ∃ e, project.Reads file e ∧ ((∃ v, e.Declares v ∧ r.StandsFor e v) ∨
    e.isStack = true ∧ ∃ v chosen embeds embed m deps, e.choose v = .ok chosen ∧
      Embed.readAll chosen.data = .ok embeds ∧ embed ∈ embeds ∧
      embed.Makes project.archs chosen (embeds.map Embed.name) m ∧ deps.Perm m.deps ∧
      r.MadeFrom { m with deps })

theorem Element.ExpandsTo.kept {q : Node → Prop} (hq : Node.IsKept q) {chosen final : Element}
    (h : chosen.ExpandsTo final) (hchosen : chosen.AllData q) : q final.data := by
  rw [ExpandsTo] at h
  split at h
  · obtain ⟨embeds, -, rfl⟩ := h
    exact hq.erase hchosen.data _
  · exact h ▸ hchosen.data

theorem Resolved.ComesFrom.supplies {project : Project} {file : String} {r : Resolved}
    (h : r.ComesFrom project file) :
    ∀ node ∈ r.settings.sections, node.AllScalars (project.Supplies file) := by
  have hq := Node.isKept_allScalars (project.Supplies file)
  obtain ⟨e, hreads, horigin⟩ := h
  have hall : e.AllData (Node.AllScalars (project.Supplies file)) :=
    hreads.allData hq fun _ _ _ => Project.supplies_of_parseDocument
  rcases horigin with ⟨v, -, chosen, final, deps, hchosen, hexpands, -, hmade⟩ |
    ⟨-, v, chosen, embeds, embed, m, deps, hchosen, hembeds, hembed, ⟨declared, hread, hbecomes⟩, -,
      hmade⟩
  · exact hq.sections (hexpands.kept hq (hq.choose hall hchosen)) hmade.settings
  · have hdata := hq.readEmbeds (hq.choose hall hchosen).data hembeds embed hembed
    exact hq.sections (hq.dataIn (hq.ofDocument hdata hread) hbecomes.data) hmade.settings

/-- Every scalar in the sections of what a load gives, and in the configuration of its sources, stands
as it is in the file of the element or in that of a fragment that it includes. -/
theorem load_scalars {workspace : Workspace} {options : Options} {root r : Resolved}
    (h : (load workspace options).result = .ok root) (within : r.Within root) :
    (∃ file ∈ (load workspace options).ticks, r.ComesFrom (options.projectIn workspace) file) ∧
      ∀ file, r.ComesFrom (options.projectIn workspace) file →
        ∀ node ∈ r.settings.sections, ∀ s p, node.HasScalar s p →
          (options.projectIn workspace).Supplies file s p := by
  obtain ⟨elements, target, e₀, hticks, hreads, known, hresolve⟩ := resolve_of_load h
  refine ⟨?_, fun file hcomes => hcomes.supplies⟩
  rcases Project.resolve_cases known hresolve within with ⟨e, he, hstands⟩ |
    ⟨stack, hstack, hkind, hembed⟩
  · exact ⟨e.filename, hticks ▸ List.mem_map_of_mem he, e, hreads e he, .inl hstands⟩
  · exact ⟨stack.filename, hticks ▸ List.mem_map_of_mem hstack, stack, hreads stack hstack,
      .inr ⟨hkind, hembed⟩⟩

/-- The text of an element `a` that includes a fragment. -/
def includingText : String := "kind: manual\ninclude: f.yml\nconfig: \x7bx: 1\x7d\n"

def includedText : String := "variables: \x7by: 2\x7d\n"

def includingWorkspace : Workspace :=
  (Workspace.write {} "a.bst" (some includingText)).write "f.yml" (some includedText)

def includingProject : Project := ⟨[("f.yml", includedText), ("a.bst", includingText)], {}⟩

/-- What the fragment says of the variables. -/
def includedVars : Node :=
  .mapping [("y", .scalar (.int 2) ⟨"f.yml", 1, 15⟩)] ⟨"f.yml", 1, 11⟩

def includingElement : Element where
  name := "a"
  filename := "a.bst"
  kind := "manual"
  data := .mapping [("kind", .scalar (.string "manual") ⟨"a.bst", 1, 6⟩),
    ("config", .mapping [("x", .scalar (.int 1) ⟨"a.bst", 3, 12⟩)] ⟨"a.bst", 3, 8⟩),
    ("variables", includedVars)] ⟨"a.bst", 1, 0⟩
  baseDeps := []
  variants := []

/-- The fragment as it is kept. -/
def includedFragments : Fragments := [("f.yml", .mapping [("variables", includedVars)] ⟨"f.yml", 1, 0⟩)]

theorem includingElement_loads :
    Discovery.Loads includingProject {} ⟨"a.bst", none⟩ includingElement includedFragments where
  name := by decide +kernel
  new := rfl
  free := rfl
  read := ⟨includingText, by decide +kernel, by decide +kernel⟩

theorem includingWorkspace_project :
    Options.projectIn { target := "a.bst" } includingWorkspace = includingProject := by
  have hfiles : includingWorkspace.filesFrom "." =
      [("f.yml", includedText), ("a.bst", includingText)] := by decide +kernel
  rw [Options.projectIn, hfiles]
  rfl

theorem includingWorkspace_loads : ∃ root,
    (load includingWorkspace { target := "a.bst" }).result = .ok root ∧
      root.settings.vars = includedVars := by
  have hfound : (Discovery.fromTarget (Options.projectIn { target := "a.bst" } includingWorkspace)
      "a.bst").result = .ok (.ofList [includingElement]) :=
    includingWorkspace_project ▸ Discovery.Discovers.result (.load includingElement_loads .done)
  have hresolve : (Project.resolve {} (.ofList [includingElement]) "a" none).toOption.map
      (fun root => root.settings.vars) = some includedVars := by
    decide +kernel
  obtain ⟨root, hroot, hvars⟩ := Option.map_eq_some_iff.1 hresolve
  exact ⟨root, load_eq_ok_iff.2 ⟨by decide, by decide, _, "a", hfound, includingElement_loads.name,
    toOption_eq_some_iff.1 hroot⟩, hvars⟩

/-- The variable that the fragment sets is one of the element, and the element includes the
fragment. -/
theorem includingWorkspace_scalars : ∃ root file,
    (load includingWorkspace { target := "a.bst" }).result = .ok root ∧
      root.settings.vars.HasScalar (.int 2) ⟨"f.yml", 1, 15⟩ ∧
      root.ComesFrom includingProject file ∧
      includingProject.Supplies file (.int 2) ⟨"f.yml", 1, 15⟩ := by
  obtain ⟨root, hload, hvars⟩ := includingWorkspace_loads
  obtain ⟨⟨file, -, hcomes⟩, hscalars⟩ := load_scalars hload .self
  have hscalar : root.settings.vars.HasScalar (.int 2) ⟨"f.yml", 1, 15⟩ :=
    hvars ▸ .member List.mem_cons_self .here
  have hsection : root.settings.vars ∈ root.settings.sections :=
    List.mem_cons_of_mem _ List.mem_cons_self
  have hsupplied := hscalars file hcomes _ hsection _ _ hscalar
  rw [includingWorkspace_project] at hcomes hsupplied
  exact ⟨root, file, hload, hscalar, hcomes, hsupplied⟩

end BuildGraph
