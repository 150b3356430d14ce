import BuildGraph.Proofs.Document.Merge
import BuildGraph.Proofs.Load.Discovered
import BuildGraph.Proofs.Load.Passes
import BuildGraph.Proofs.Yaml.Nesting

/-!
# What a load says of a file

Every element of a load that comes from a file is the element of that file in one variant that it
declares: its settings are those of the document with the data of the variant composited onto it, and
it needs the dependencies in effect in the variant and, if it is a stack, its embeds.
-/

namespace BuildGraph

namespace Element

/-- Whether a document is that of an element in a variant: its own, with the data of the variant
composited onto it. What it then holds is what the two documents come to, path by path. -/
def DocumentIn (e : Element) : Option String → Node → Prop
  | none, document => document = e.data
  | some v, document => ∃ chosen, e.variant? v = some chosen ∧
      e.data.composite chosen.data .arrayAppend true = ⟨document, none⟩ ∧
      Node.MergesTo .arrayAppend chosen.data e.data document

/-- Whether names are those of the elements that the embeds in a document become. Only stacks have
any. -/
def EmbedsIn (e : Element) (document : Node) (names : List String) : Prop :=
  if e.isStack then ∃ embeds, Embed.readAll document = .ok embeds ∧
    names = embeds.map fun embed => Embed.fullName e embed.name
  else names = []

/-- Whether elements differ in nothing but their variants, and not in the one named `v`. -/
structure AgreesIn (v : String) (e e' : Element) : Prop where
  name : e.name = e'.name
  kind : e.kind = e'.kind
  data : e.data = e'.data
  baseDeps : e.baseDeps = e'.baseDeps
  variant : e.variant? v = e'.variant? v

end Element

/-- Whether a resolved element is an element in one of the variants that it declares, `document` being
its document in that variant. -/
structure Resolved.Refines (r : Resolved) (e : Element) (document : Node) : Prop where
  name : r.name = e.name
  declared : e.Declares r.variant
  unvaried : r.variant = none ↔ e.variants = []
  composed : e.DocumentIn r.variant document
  config : document.IsSection "config" r.settings.config
  vars : document.IsSection "variables" r.settings.vars
  env : document.IsSection "environment" r.settings.env
  published : document.IsSection "public" r.settings.published
  /-- There is nothing in the settings that is not in the document. -/
  settings : Settings.ReadFrom e.name document r.settings
  needs : ∃ embeds, e.EmbedsIn document embeds ∧
    (r.build.map Resolved.name).Perm
      (Named.names ((e.depsFor r.variant).filter Dependency.isBuild) ++ embeds) ∧
    (r.runtime.map Resolved.name).Perm
      (Named.names ((e.depsFor r.variant).filter Dependency.isRuntime) ++ embeds)

namespace Element

variable {e e' chosen : Element} {variant : Option String} {v : String}

theorem documentIn_of_choose (hdecl : e.Declares variant) (hkeys : e.AllData Node.HasDistinctKeys)
    (h : e.choose variant = .ok chosen) : e.DocumentIn variant chosen.data := by
  obtain ⟨data, hdata, rfl⟩ := choose_eq_ok_iff.1 h
  cases variant with
  | none => exact (Except.ok.inj hdata).symm
  | some v =>
    obtain ⟨found, hfound⟩ := Option.isSome_iff_exists.1 hdecl
    rw [dataIn, Option.bind_some, hfound] at hdata
    have hcomposed : e.data.composite found.data .arrayAppend true = ⟨data, none⟩ :=
      Layer.onto_eq_ok_iff.1 hdata
    have hdistinct := hkeys.variants found (Named.mem_of_find? hfound)
    exact ⟨found, hfound, hcomposed, Node.compositeValue_mergesTo (by decide) hdistinct
      (Node.compositeValue_of_composite hcomposed)⟩

theorem AgreesIn.depsFor_eq (h : AgreesIn v e e') : e.depsFor (some v) = e'.depsFor (some v) := by
  rw [depsFor, depsFor, Option.bind_some, Option.bind_some, h.variant, h.baseDeps]

theorem AgreesIn.embedsIn {document : Node} {names : List String} (h : AgreesIn v e e')
    (hnames : e.EmbedsIn document names) : e'.EmbedsIn document names := by
  have hfull : Embed.fullName e = Embed.fullName e' := by
    funext name
    rw [Embed.fullName, Embed.fullName, h.name]
  rwa [EmbedsIn, isStack, ← h.kind, ← hfull]

/-- A resolved element has nothing of the variants that it is not in. -/
theorem AgreesIn.refines {r : Resolved} {document : Node} (h : AgreesIn v e e')
    (hvariant : r.variant = some v) (hr : r.Refines e document) : r.Refines e' document := by
  obtain ⟨embeds, hembeds, hbuild, hruntime⟩ := hr.needs
  have hdecl : e'.Declares r.variant := by
    have hold := hr.declared
    rw [hvariant, Declares] at hold ⊢
    rwa [← h.variant]
  have hcomposed : e'.DocumentIn r.variant document := by
    have hold := hr.composed
    rw [hvariant, DocumentIn] at hold ⊢
    rwa [← h.variant, ← h.data]
  have hdeps : e.depsFor r.variant = e'.depsFor r.variant := hvariant ▸ h.depsFor_eq
  exact { hr with
    name := hr.name.trans h.name
    declared := hdecl
    unvaried := hdecl.eq_none_iff
    composed := hcomposed
    settings := h.name ▸ hr.settings
    needs := ⟨embeds, h.embedsIn hembeds, hdeps ▸ hbuild, hdeps ▸ hruntime⟩ }

theorem names_filter_withEmbeds (stack : Element) (embeds : List Embed) {p : Dependency → Bool}
    (hp : ∀ embed, p (Embed.dependency stack embed) = true) :
    Named.names ((Stack.withEmbeds stack embeds).deps.filter p) =
      Named.names (stack.deps.filter p) ++
        embeds.map fun embed => Embed.fullName stack embed.name := by
  have hkept : (embeds.map (Embed.dependency stack)).filter p =
      embeds.map (Embed.dependency stack) := by
    refine List.filter_eq_self.2 fun dep hdep => ?_
    obtain ⟨embed, -, rfl⟩ := List.mem_map.1 hdep
    exact hp embed
  rw [Stack.withEmbeds, List.filter_append, hkept, Named.names, List.map_append, List.map_map]
  rfl

/-- What an expansion leaves of a chosen element: its settings, and its dependencies with its embeds
after them, which are needed both to build and to run. -/
theorem ExpandsTo.needs {final : Element} (h : chosen.ExpandsTo final)
    (hchosen : e.choose variant = .ok chosen) :
    (∀ name settings, Settings.ReadFrom name final.data settings →
        Settings.ReadFrom name chosen.data settings) ∧
      ∃ embeds, e.EmbedsIn chosen.data embeds ∧
        Named.names (final.deps.filter Dependency.isBuild) =
          Named.names ((e.depsFor variant).filter Dependency.isBuild) ++ embeds ∧
        Named.names (final.deps.filter Dependency.isRuntime) =
          Named.names ((e.depsFor variant).filter Dependency.isRuntime) ++ embeds := by
  obtain ⟨data, -, rfl⟩ := choose_eq_ok_iff.1 hchosen
  rw [ExpandsTo] at h
  split at h
  · next hstack =>
    obtain ⟨embeds, hread, rfl⟩ := h
    have hkind : e.isStack = true := hstack
    have hembeds : e.EmbedsIn data (embeds.map fun embed => Embed.fullName e embed.name) := by
      rw [EmbedsIn, if_pos hkind]
      exact ⟨embeds, hread, rfl⟩
    exact ⟨fun _ _ hfrom => hfrom.of_erase (by decide), _, hembeds,
      names_filter_withEmbeds _ embeds fun _ => rfl, names_filter_withEmbeds _ embeds fun _ => rfl⟩
  · next hother =>
    subst h
    have hkind : ¬e.isStack = true := hother
    have hembeds : e.EmbedsIn data [] := by
      rw [EmbedsIn, if_neg hkind]
    exact ⟨fun _ _ hfrom => hfrom, [], hembeds, by simp, by simp⟩

end Element

/-- No mapping in the data of an element that a file declares repeats a key. -/
theorem Project.Reads.hasDistinctKeys {project : Project} {file : String} {e : Element}
    (h : project.Reads file e) : e.AllData Node.HasDistinctKeys :=
  h.allData Node.isKept_hasDistinctKeys fun _ _ _ _ _ hparse =>
    Node.hasDistinctKeys_of_parseDocument hparse

theorem Resolved.StandsFor.refines {r : Resolved} {e : Element} {variant : Option String}
    (h : r.StandsFor e variant) (hdecl : e.Declares variant)
    (hkeys : e.AllData Node.HasDistinctKeys) : ∃ document, r.Refines e document := by
  obtain ⟨chosen, final, deps, hchosen, hexpands, hperm, hmade⟩ := h
  obtain ⟨hsettings, embeds, hembeds, hbuild, hruntime⟩ := hexpands.needs hchosen
  have hname : final.name = e.name := hexpands.name.trans (Element.name_of_choose hchosen)
  have hvariant : r.variant = variant := calc
    r.variant = final.variant := hmade.variant
    _ = chosen.variant := hexpands.variant
    _ = variant := Element.variant_of_choose hchosen
  have hfrom : Settings.ReadFrom e.name chosen.data r.settings :=
    hname ▸ hsettings _ _ hmade.settings
  obtain ⟨hconfig, hvars, henv, hpublished⟩ := hfrom.sections
  refine ⟨chosen.data, {
    name := hmade.name.trans hname
    declared := hvariant ▸ hdecl
    unvaried := hvariant ▸ hdecl.eq_none_iff
    composed := hvariant ▸ Element.documentIn_of_choose hdecl hkeys hchosen
    config := hconfig
    vars := hvars
    env := henv
    published := hpublished
    settings := hfrom
    needs := ⟨embeds, hembeds, ?_, ?_⟩ }⟩
  · rw [hmade.build, hvariant, ← hbuild]
    exact (hperm.filter _).map _
  · rw [hmade.runtime, hvariant, ← hruntime]
    exact (hperm.filter _).map _

/-- A load that succeeds resolves the target among the elements of the files that it begins. -/
theorem resolve_of_load {workspace : Workspace} {options : Options} {root : Resolved}
    (h : (load workspace options).result = .ok root) :
    ∃ elements target e, (load workspace options).ticks = elements.toList.map Element.filename ∧
      (∀ e ∈ elements.toList, (options.projectIn workspace).Reads e.filename e) ∧
      elements.find? target = some e ∧
      Project.resolve options.archs elements target options.variant = .ok root := by
  obtain ⟨htarget, hdirectory, elements, name, hfound, hname, hresolve⟩ := load_eq_ok_iff.1 h
  obtain ⟨e, known⟩ := Option.isSome_iff_exists.1 (Discovery.fromTarget_isSome hfound hname)
  obtain ⟨hticks, hreads⟩ := Discovery.fromTarget_reads hfound
  rw [load_eq htarget hdirectory]
  exact ⟨elements, name, e, hticks, hreads, known, hresolve⟩

/-- Every element in the tree of a load that comes from a file is the element of that file in a variant
that it declares, and has nothing of its other variants. -/
theorem load_refines {workspace : Workspace} {options : Options} {root r : Resolved} {file : String}
    (h : (load workspace options).result = .ok root) (within : r.Within root)
    (begun : file ∈ (load workspace options).ticks) (named : Path.stem? file = some r.name) :
    ∃ e document, (options.projectIn workspace).Reads file e ∧ r.Refines e document ∧
      ∀ v e', r.variant = some v → e.AgreesIn v e' → r.Refines e' document := by
  obtain ⟨elements, target, e₀, hticks, hreads, known, hresolve⟩ := resolve_of_load h
  rw [hticks] at begun
  obtain ⟨e, he, rfl⟩ := List.mem_map.1 begun
  obtain ⟨-, pool, -, hstands⟩ := Project.resolve_standsFor known hresolve
  obtain ⟨entry, -, hdecl, hr⟩ := hstands r within e (Discovery.find?_of_stem hreads he named)
  obtain ⟨document, hrefines⟩ := hr.refines hdecl (hreads e he).hasDistinctKeys
  exact ⟨e, document, hreads e he, hrefines, fun v e' hv hagrees => hagrees.refines hv hrefines⟩

/-- The text of a stack `s` with one embed, in two variants that say different things. -/
def bundleText : String :=
  "kind: stack\nvariants:\n- variant: x\n  config: \x7bon: 1\x7d\n- variant: y\n  " ++
    "config: \x7boff: 1\x7d\nembeds:\n- \x7bname: m, kind: manual\x7d\n"

def bundleWorkspace : Workspace := Workspace.write {} "s.bst" (some bundleText)

/-- The document of the embed of the stack. -/
def bundledNode : Node := .mapping
  [("name", .scalar (.string "m") ⟨"s.bst", 8, 9⟩),
    ("kind", .scalar (.string "manual") ⟨"s.bst", 8, 18⟩)] ⟨"s.bst", 8, 2⟩

/-- The data of a variant that sets one key in the configuration. -/
def bundledConfig (key : String) (place config value : Provenance) : Node :=
  .mapping [("config", .mapping [(key, .scalar (.int 1) value)] config)] place

def bundleElement : Element where
  name := "s"
  filename := "s.bst"
  kind := "stack"
  data := .mapping
    [("kind", .scalar (.string "stack") ⟨"s.bst", 1, 6⟩),
      ("embeds", .sequence [bundledNode] ⟨"s.bst", 8, 2⟩)] ⟨"s.bst", 1, 0⟩
  baseDeps := []
  variants := [
    ⟨"x", bundledConfig "on" ⟨"s.bst", 3, 2⟩ ⟨"s.bst", 4, 10⟩ ⟨"s.bst", 4, 15⟩, [], ⟨"s.bst", 3, 11⟩⟩,
    ⟨"y", bundledConfig "off" ⟨"s.bst", 5, 2⟩ ⟨"s.bst", 6, 10⟩ ⟨"s.bst", 6, 16⟩, [], ⟨"s.bst", 5, 11⟩⟩]

def bundleTable : Elements := .ofList [bundleElement]

theorem bundleElement_loads : Discovery.Loads ⟨[("s.bst", bundleText)], {}⟩ {} ⟨"s.bst", none⟩
    bundleElement [] where
  name := by decide +kernel
  new := rfl
  free := rfl
  read := ⟨bundleText, by decide +kernel, by decide +kernel⟩

theorem bundleFiles_discovered :
    (Discovery.fromTarget ⟨[("s.bst", bundleText)], {}⟩ "s.bst").result = .ok bundleTable :=
  Discovery.Discovers.result (.load bundleElement_loads .done)

theorem bundleWorkspace_project (variant : Option String) :
    Options.projectIn { target := "s.bst", variant } bundleWorkspace =
      ⟨[("s.bst", bundleText)], {}⟩ := by
  have hfiles : bundleWorkspace.filesFrom "." = [("s.bst", bundleText)] := by decide +kernel
  exact congrArg (Project.mk · {}) hfiles

theorem bundleTable_resolves : ∃ r, Project.resolve {} bundleTable "s" (some "x") = .ok r ∧
    r.name = "s" ∧ r.variant = some "x" ∧ Keyed.keys r.settings.config.members = ["on"] ∧
      r.build.map Resolved.name = ["s-m"] := by
  have hresolve : (Project.resolve {} bundleTable "s" (some "x")).toOption.map
      (fun r => (r.name, r.variant, Keyed.keys r.settings.config.members,
        r.build.map Resolved.name)) = some ("s", some "x", ["on"], ["s-m"]) := by
    decide +kernel
  obtain ⟨r, hr, heq⟩ := Option.map_eq_some_iff.1 hresolve
  simp only [Prod.mk.injEq] at heq
  exact ⟨r, toOption_eq_some_iff.1 hr, heq⟩

/-- The stack in its variant `x`, with its embed. Its configuration has the key that this variant sets,
and not that of the other one. -/
theorem bundleWorkspace_refines : ∃ root e document,
    (load bundleWorkspace { target := "s.bst", variant := some "x" }).result = .ok root ∧
      root.variant = some "x" ∧ Keyed.keys root.settings.config.members = ["on"] ∧
      root.build.map Resolved.name = ["s-m"] ∧ root.Refines e document := by
  obtain ⟨root, hresolve, hname, hvariant, hconfig, hbuild⟩ := bundleTable_resolves
  have hfound : (Discovery.fromTarget (Options.projectIn { target := "s.bst", variant := some "x" }
      bundleWorkspace) "s.bst").result = .ok bundleTable :=
    bundleWorkspace_project _ ▸ bundleFiles_discovered
  have hload : (load bundleWorkspace { target := "s.bst", variant := some "x" }).result = .ok root :=
    load_eq_ok_iff.2 ⟨by decide, by decide, bundleTable, "s", hfound, bundleElement_loads.name,
      hresolve⟩
  have hbegun : "s.bst" ∈
      (load bundleWorkspace { target := "s.bst", variant := some "x" }).ticks := by
    rw [load_eq (by decide) (by decide)]
    exact (Discovery.fromTarget_reads hfound).1 ▸ List.mem_singleton_self "s.bst"
  have hnamed : Path.stem? "s.bst" = some root.name := by
    rw [hname]
    decide +kernel
  obtain ⟨e, document, -, hrefines, -⟩ := load_refines hload .self hbegun hnamed
  exact ⟨root, e, document, hload, hvariant, hconfig, hbuild, hrefines⟩

end BuildGraph
