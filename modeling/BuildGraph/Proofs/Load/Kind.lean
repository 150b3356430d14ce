import BuildGraph.Proofs.Element.Kind
import BuildGraph.Proofs.Load.Refinement
import BuildGraph.Proofs.Stack.Embedded

/-!
# Kinds that a load reports

Every element in the tree of a load is that of a file, or is made of an embed of a stack. Whether it
is treated as a stack depends on the kind that its document declares; the kind that is reported of
it is the one that its document or one of the layers says last. The two agree where no layer changes
the kind to or from that of a stack.
-/

namespace BuildGraph

/-- Whether `whole` is the document of a file with all fragments that it includes. -/
def Project.Holds (project : Project) (file : String) (whole : Node) : Prop :=
  ∃ text document spliced, project.files.lookup file = some text ∧
    Node.parseDocument text file = .ok document ∧
    Include.Processes project.files document spliced ∧
    Element.SplicesEmbeds project.files spliced whole

/-- Whether `kind` is what a load says of an element that is read from a document. It says that of
stacks only, and of all of them, if no layer changes the kind to or from that of a stack. -/
def Element.Reports (archs : Architectures) (document : Node) (e : Element)
    (variant : Option String) (kind : String) : Prop :=
  ∃ later, e.HasKind archs document variant later kind ∧
    ((∀ node ∈ later, node.asString? = some stackKind ↔ e.isStack = true) →
      (kind = stackKind ↔ e.isStack = true))

namespace Resolved

/-- Whether a resolved element is the one that a file declares in its document `whole`. -/
structure OfFile (project : Project) (file : String) (whole : Node) (e : Element) (r : Resolved) :
    Prop where
  reads : project.Reads file e
  holds : project.Holds file whole
  /-- Its embeds are expanded exactly if it is declared as a stack. -/
  refines : ∃ document, r.Refines e document
  /-- Only stacks have a single variant. -/
  counted : e.isStack = false → e.variants.length ≠ 1
  reports : e.Reports project.archs whole r.variant r.settings.kind

/-- Whether a resolved element is made of an embed of a stack, `chosen` being the stack in its
variant and `declared` what the embed declares. -/
structure OfEmbed (project : Project) (stack chosen : Element) (embed : Embed) (declared : Element)
    (r : Resolved) : Prop where
  reads : project.Reads stack.filename stack
  isStack : stack.isStack = true
  committed : ∃ variant, stack.choose variant = .ok chosen
  read : Element.ofDocument project.archs .stack (Embed.fullName chosen embed.name)
    chosen.filename embed.data = .ok declared
  /-- It is what the embed becomes, and is not expanded in turn. -/
  made : ∃ embeds e deps, Embed.readAll chosen.data = .ok embeds ∧ embed ∈ embeds ∧
    embed.Becomes chosen (embeds.map Embed.name) declared e ∧ deps.Perm e.deps ∧
    r.MadeFrom { e with deps }
  unnested : declared.isStack = false
  reports : declared.Reports project.archs embed.data r.variant r.settings.kind

end Resolved

theorem Project.Reads.holds {project : Project} {file : String} {e : Element}
    (h : project.Reads file e) : ∃ whole, project.Holds file whole ∧
      Element.ofDocument project.archs .file e.name file whole = .ok e ∧
      e.checkVariantCount = .ok () := by
  obtain ⟨text, document, spliced, whole, name, htext, hparse, hspliced, hwhole, -, hread,
    hcount⟩ := h
  exact ⟨whole, ⟨text, document, spliced, htext, hparse, hspliced, hwhole⟩,
    Element.ofDocument_name hread ▸ hread, hcount⟩

namespace Element

variable {archs : Architectures} {e chosen : Element} {variant : Option String}

theorem length_variants_ne_one (h : e.checkVariantCount = .ok ()) (hkind : e.isStack = false) :
    e.variants.length ≠ 1 := by
  intro hone
  obtain ⟨v, hv⟩ := List.length_eq_one_iff.1 hone
  rw [checkVariantCount, hv, hkind] at h
  cases h

theorem dataIn_of_choose (h : e.choose variant = .ok chosen) :
    e.dataIn variant = .ok chosen.data := by
  obtain ⟨data, hdata, rfl⟩ := choose_eq_ok_iff.1 h
  exact hdata

theorem reports_of_settings {document data : Node} {scope : DependencyScope}
    {name owner filename : String} {settings : Settings}
    (h : ofDocument archs scope name filename document = .ok e)
    (hdata : e.dataIn variant = .ok data)
    (hsettings : Settings.ReadFrom owner data settings) :
    e.Reports archs document variant settings.kind := by
  obtain ⟨later, hkind⟩ := hasKind_of_settings h hdata hsettings
  exact ⟨later, hkind, hkind.agrees⟩

end Element

theorem Resolved.StandsFor.variant {r : Resolved} {e : Element} {variant : Option String}
    (h : r.StandsFor e variant) : r.variant = variant := by
  obtain ⟨chosen, final, deps, hchosen, hexpands, -, hmade⟩ := h
  calc
    r.variant = final.variant := hmade.variant
    _ = chosen.variant := hexpands.variant
    _ = variant := Element.variant_of_choose hchosen

/-- What stands for the element of a file is reported with the kind that was said last. -/
theorem Resolved.StandsFor.ofFile {project : Project} {r : Resolved} {e : Element}
    {variant : Option String} (h : r.StandsFor e variant) (hdecl : e.Declares variant)
    (hreads : project.Reads e.filename e) : ∃ whole, r.OfFile project e.filename whole e := by
  obtain ⟨whole, hholds, hread, hcount⟩ := hreads.holds
  have hrefines := h.refines hdecl hreads.hasDistinctKeys
  have hvariant := h.variant
  obtain ⟨chosen, final, deps, hchosen, hexpands, hperm, hmade⟩ := h
  have hsettings := (hexpands.needs hchosen).1 _ _ hmade.settings
  refine ⟨whole, hreads, hholds, hrefines, Element.length_variants_ne_one hcount, ?_⟩
  rw [hvariant]
  exact Element.reports_of_settings hread (Element.dataIn_of_choose hchosen) hsettings

/-- An embed that is read is declared as another kind than a stack. -/
theorem Embed.isStack_eq_false {archs : Architectures} {data : Node} {embeds : List Embed}
    {embed : Embed} {name filename : String} {declared : Element}
    (h : Embed.readAll data = .ok embeds) (hembed : embed ∈ embeds)
    (hread : Element.ofDocument archs .stack name filename embed.data = .ok declared) :
    declared.isStack = false := by
  simp only [Embed.readAll, bind_eq_ok_iff, access_eq_ok_iff] at h
  obtain ⟨list, -, hitems⟩ := h
  obtain ⟨item, -, hitem⟩ := exists_of_mem_mapM hitems hembed
  simp only [Embed.read, bind_eq_ok_iff, pure_eq_ok_iff, access_eq_ok_iff] at hitem
  obtain ⟨mapping, -, _, -, kind, hkind, _, hcheck, rfl⟩ := hitem
  have hdeclared : declared.kind = kind := by
    have hdata := (Element.latest_ofDocument hread).1
    rw [Node.getString_congr (Node.get?_erase_of_ne (by decide) mapping) (by simp)] at hdata
    exact Except.ok.inj (hdata.symm.trans hkind)
  rw [Element.isStack, hdeclared]
  rw [checkKind] at hcheck
  split at hcheck
  · cases hcheck
  · next hother => exact Bool.eq_false_iff.2 hother

/-- The stacks that are expanded are those of the table, in the variants that were committed. -/
theorem Elements.stack_of_committed {elements committed : Elements} {pool : Pool}
    {target name : String} {variant : Option String} {e₀ : Element}
    (known : elements.find? target = some e₀)
    (valid : elements.checkRequests target variant = .ok ())
    (h : elements.resolve target variant = .ok pool)
    (hcommit : elements.commit pool.toList = .ok committed)
    (hname : name ∈ (committed.reachable target).filter committed.isStack) :
    ∃ stack v chosen, elements.find? name = some stack ∧ stack.isStack = true ∧
      stack.choose v = .ok chosen ∧ committed.find? name = some chosen := by
  obtain ⟨entry, stack, chosen, -, hstack, -, hchoose, hcommitted⟩ :=
    committed_of_reaches known valid h hcommit (mem_reachable_iff.1 (List.mem_filter.1 hname).1)
  obtain ⟨found, hfound, hkind⟩ := exists_of_mem_stacks hname
  obtain rfl := Option.some.inj (hcommitted.symm.trans hfound)
  have hsame : chosen.isStack = stack.isStack := by
    obtain ⟨data, -, rfl⟩ := Element.choose_eq_ok_iff.1 hchoose
    rfl
  exact ⟨stack, entry.variant, chosen, hstack, hsame.symm.trans hkind, hchoose, hcommitted⟩

/-- Everything in the tree of a target stands for an element of the table, or is made of an embed of
one of its stacks. -/
theorem Project.resolve_cases {archs : Architectures} {elements : Elements} {target : String}
    {variant : Option String} {e₀ : Element} {root r : Resolved}
    (known : elements.find? target = some e₀)
    (h : Project.resolve archs elements target variant = .ok root) (within : r.Within root) :
    (∃ e ∈ elements.toList, ∃ v, e.Declares v ∧ r.StandsFor e v) ∨
      ∃ stack ∈ elements.toList, stack.isStack = true ∧ ∃ v chosen embeds embed e deps,
        stack.choose v = .ok chosen ∧ Embed.readAll chosen.data = .ok embeds ∧ embed ∈ embeds ∧
          embed.Makes archs chosen (embeds.map Embed.name) e ∧ deps.Perm e.deps ∧
          r.MadeFrom { e with deps } := by
  cases hr : elements.find? r.name with
  | some e =>
    obtain ⟨-, pool, -, hstands⟩ := Project.resolve_standsFor known h
    obtain ⟨entry, -, hdecl, hstandsFor⟩ := hstands r within e hr
    exact .inl ⟨e, Named.mem_of_find? hr, entry.variant, hdecl, hstandsFor⟩
  | none =>
    obtain ⟨hcheck, pool, committed, expanded, built, hpool, hcommit, hexpand, -, hcollect⟩ :=
      resolve_eq_ok_iff.1 h
    obtain ⟨-, -, hgrows⟩ := Elements.collects [] target [] (fun _ _ hnil => by cases hnil)
      root built hcollect
    obtain ⟨made, hmade, hfrom⟩ := hgrows r within
    obtain ⟨e, deps, he, hperm, rfl⟩ := Elements.find?_of_sortDependencies hmade
    rcases Elements.find?_cases_of_expandAll ((Elements.nodup_reachable target).filter _)
      (fun _ => Elements.isSome_of_mem_stacks) hexpand he with
      hold | ⟨name, hname, chosen, hchosen, embeds, hembeds, embed, hembed, hmakes⟩
    · rw [Elements.isSome_commit_iff hcommit, hr] at hold
      cases hold
    · obtain ⟨stack, v, other, hstack, hkind, hchoose, hcommitted⟩ :=
        Elements.stack_of_committed known hcheck hpool hcommit hname
      obtain rfl := Option.some.inj (hchosen.symm.trans hcommitted)
      exact .inr ⟨stack, Named.mem_of_find? hstack, hkind, v, chosen, embeds, embed, e, deps,
        hchoose, hembeds, hembed, hmakes, hperm, hfrom⟩

/-- Everything in the tree of a load is the element of a file, or is made of an embed of the stack
of one. -/
theorem load_kinds {workspace : Workspace} {options : Options} {root r : Resolved}
    (h : (load workspace options).result = .ok root) (within : r.Within root) :
    (∃ file whole e, r.OfFile (options.projectIn workspace) file whole e) ∨
      ∃ stack chosen embed declared,
        r.OfEmbed (options.projectIn workspace) stack chosen embed declared := by
  obtain ⟨elements, target, e₀, -, hreads, known, hresolve⟩ := resolve_of_load h
  rcases Project.resolve_cases known hresolve within with ⟨e, he, v, hdecl, hstands⟩ |
    ⟨stack, hstack, hkind, v, chosen, embeds, embed, e, deps, hchoose, hembeds, hembed, hmakes,
      hperm, hmade⟩
  · obtain ⟨whole, hfile⟩ := hstands.ofFile hdecl (hreads e he)
    exact .inl ⟨e.filename, whole, e, hfile⟩
  · obtain ⟨declared, hread, hbecomes⟩ := hmakes
    refine .inr ⟨stack, chosen, embed, declared, hreads stack hstack, hkind, ⟨v, hchoose⟩, hread,
      ⟨embeds, e, deps, hembeds, hembed, hbecomes, hperm, hmade⟩,
      Embed.isStack_eq_false hembeds hembed hread, ?_⟩
    have hvariant : r.variant = e.variant := hmade.variant
    rw [hvariant]
    exact Element.reports_of_settings hread hbecomes.data hmade.settings

/-- The text of a stack `s` with an embed that is made a stack by an overlay. -/
def nestedText : String :=
  "kind: stack\nembeds:\n- name: one\n  kind: manual\n  arches:\n    x86_64:\n      kind: stack\n"

def nestedWorkspace : Workspace := Workspace.write {} "s.bst" (some nestedText)

def nestedOptions : Options := { target := "s.bst", targetArch := some "x86_64" }

def nestedProject : Project := ⟨[("s.bst", nestedText)], ⟨none, some "x86_64"⟩⟩

/-- The document of the embed. -/
def nestedNode : Node :=
  let text (s : String) (line column : Nat) : Node := .scalar (.string s) ⟨"s.bst", line, column⟩
  .mapping [("name", text "one" 3 8), ("kind", text "manual" 4 8), ("arches",
    .mapping [("x86_64", .mapping [("kind", text "stack" 7 12)] ⟨"s.bst", 7, 6⟩)] ⟨"s.bst", 6, 4⟩)]
    ⟨"s.bst", 3, 2⟩

def nestedElement : Element where
  name := "s"
  filename := "s.bst"
  kind := "stack"
  data := .mapping [("kind", .scalar (.string "stack") ⟨"s.bst", 1, 6⟩),
    ("embeds", .sequence [nestedNode] ⟨"s.bst", 3, 2⟩)] ⟨"s.bst", 1, 0⟩
  baseDeps := []
  variants := []

theorem nestedElement_loads :
    Discovery.Loads nestedProject {} ⟨"s.bst", none⟩ nestedElement [] where
  name := by decide +kernel
  new := rfl
  free := rfl
  read := ⟨nestedText, by decide +kernel, by decide +kernel⟩

theorem nestedWorkspace_project : nestedOptions.projectIn nestedWorkspace = nestedProject := by
  have hfiles : nestedWorkspace.filesFrom "." = [("s.bst", nestedText)] := by decide +kernel
  exact congrArg (Project.mk · ⟨none, some "x86_64"⟩) hfiles

theorem nestedElement_resolves : ∃ root,
    Project.resolve nestedOptions.archs (.ofList [nestedElement]) "s" none = .ok root ∧
      root.build.map (fun r => (r.name, r.settings.kind)) = [("s-one", "stack")] := by
  have hresolve : (Project.resolve nestedOptions.archs (.ofList [nestedElement]) "s"
      none).toOption.map (fun root => root.build.map fun r => (r.name, r.settings.kind)) =
      some [("s-one", "stack")] := by
    decide +kernel
  obtain ⟨root, hroot, hbuild⟩ := Option.map_eq_some_iff.1 hresolve
  exact ⟨root, toOption_eq_some_iff.1 hroot, hbuild⟩

theorem nestedWorkspace_loads : ∃ root r, (load nestedWorkspace nestedOptions).result = .ok root ∧
    r ∈ root.build ∧ r.name = "s-one" ∧ r.settings.kind = "stack" := by
  have hfound : (Discovery.fromTarget (nestedOptions.projectIn nestedWorkspace) "s.bst").result =
      .ok (.ofList [nestedElement]) :=
    nestedWorkspace_project ▸ Discovery.Discovers.result (.load nestedElement_loads .done)
  obtain ⟨root, hresolve, hbuild⟩ := nestedElement_resolves
  have hmem : ("s-one", "stack") ∈ root.build.map fun r => (r.name, r.settings.kind) :=
    hbuild ▸ List.mem_singleton_self _
  obtain ⟨r, hr, hsame⟩ := List.mem_map.1 hmem
  obtain ⟨hname, hkind⟩ := Prod.mk.inj hsame
  exact ⟨root, r, load_eq_ok_iff.2 ⟨by decide, by decide, _, "s", hfound, nestedElement_loads.name,
    hresolve⟩, hr, hname, hkind⟩

/-- The element of an embed that is declared as another kind is reported as a stack. -/
theorem nestedWorkspace_kinds : ∃ root r stack chosen embed declared,
    (load nestedWorkspace nestedOptions).result = .ok root ∧ r ∈ root.build ∧
      r.settings.kind = Element.stackKind ∧ declared.isStack = false ∧
      r.OfEmbed (nestedOptions.projectIn nestedWorkspace) stack chosen embed declared := by
  obtain ⟨root, r, hload, hr, hname, hkind⟩ := nestedWorkspace_loads
  rcases load_kinds hload (.build hr .self) with ⟨file, whole, e, hfile⟩ |
    ⟨stack, chosen, embed, declared, hembed⟩
  · -- the only file is that of the stack, which has another name
    obtain ⟨text, -, -, hlookup, -⟩ := hfile.holds
    obtain ⟨document, hrefines⟩ := hfile.refines
    rw [nestedWorkspace_project] at hlookup
    have hstem : Path.stem? file = some "s-one" := by
      rw [hfile.reads.stem, ← hrefines.name, hname]
    have hs : Path.stem? "s.bst" = some "s" := by decide +kernel
    by_cases hsame : file = "s.bst"
    · rw [hsame, hs] at hstem
      exact absurd (Option.some.inj hstem) (by decide)
    · have hne : (file == "s.bst") = false := by simpa using hsame
      simp [nestedProject, List.lookup_cons, hne] at hlookup
  · exact ⟨root, r, stack, chosen, embed, declared, hload, hr, hkind, hembed.unnested, hembed⟩

end BuildGraph
