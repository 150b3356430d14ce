import BuildGraph.Proofs.Load.Kind
import BuildGraph.Proofs.Resolved.Sharing

/-!
# Requests between embeds

A dependency between embeds may name a variant of the sibling, as one between files may name a variant
of the file. Between files such a request is checked and obeyed. An embed is in the variant of its
stack if it declares that one, and in none otherwise, whatever its siblings ask for: a request among
embeds comes true only where it asks for just that, and no other one makes a load fail.
-/

namespace BuildGraph

/-- Whether an embed of a stack declares an element. -/
def Embed.Reads (archs : Architectures) (stack : Element) (embed : Embed) (declared : Element) :
    Prop :=
  Element.ofDocument archs .stack (Embed.fullName stack embed.name) stack.filename embed.data =
    .ok declared

/-- Whether a resolved element is in the variant that a dependency asks for, if it asks for one. -/
def Dependency.IsMetBy (dep : Dependency) (s : Resolved) : Prop :=
  ∀ w, dep.variant = some w → s.variant = some w

/-- What an embed that declares `declared` comes to in the tree of `root`, where `t` is its stack and
`embeds` are all the embeds of it. -/
structure Resolved.Unfolds (archs : Architectures) (root t : Resolved) (stack : Element)
    (embeds : List Embed) (embed : Embed) (declared : Element) : Prop where
  reads : embed.Reads archs stack declared
  build : ∃ r ∈ t.build, r.name = Embed.fullName stack embed.name
  runtime : ∃ r ∈ t.runtime, r.name = Embed.fullName stack embed.name
  /-- It is in the variant of the stack where it declares that one, and in none otherwise. -/
  variant : ∀ r : Resolved, r.Within root → r.name = Embed.fullName stack embed.name →
    ∀ v, r.variant = some v ↔ t.variant = some v ∧ declared.Declares (some v)
  /-- It needs every sibling that it depends on in its variant. -/
  needs : ∀ r : Resolved, r.Within root → r.name = Embed.fullName stack embed.name →
    ∀ dep ∈ declared.depsFor r.variant,
      (dep.isBuild = true → ∃ s ∈ r.build, s.name = Embed.fullName stack dep.name) ∧
      (dep.isRuntime = true → ∃ s ∈ r.runtime, s.name = Embed.fullName stack dep.name)
  /-- What it asks of a sibling comes true exactly if it asks for the variant of the stack and the
  sibling declares that one. -/
  requests : ∀ r : Resolved, r.Within root → r.name = Embed.fullName stack embed.name →
    ∀ dep ∈ declared.depsFor r.variant, ∃ sibling ∈ embeds, sibling.name = dep.name ∧
      ∃ other, sibling.Reads archs stack other ∧
        ∀ s : Resolved, s.Within root → s.name = Embed.fullName stack dep.name →
          (dep.IsMetBy s ↔
            ∀ w, dep.variant = some w → t.variant = some w ∧ other.Declares (some w))

theorem Embed.Becomes.variant_iff {stack declared e : Element} {siblings : List String}
    {embed : Embed} (h : embed.Becomes stack siblings declared e) {v : String} :
    e.variant = some v ↔ stack.variant = some v ∧ declared.Declares (some v) := by
  constructor
  · intro hv
    by_contra hnot
    have hnone : e.variant = none := by
      refine h.unchosen fun w hw hdecl => ?_
      rw [h.chosen w hw hdecl] at hv
      exact hnot ⟨hw.trans hv, Option.some.inj hv ▸ hdecl⟩
    rw [hnone] at hv
    cases hv
  · rintro ⟨hv, hdecl⟩
    exact h.chosen v hv hdecl

/-- The dependencies in effect of an embed are those of what it becomes, under the full names. -/
theorem Embed.Becomes.qualify_mem {stack declared e : Element} {siblings : List String}
    {embed : Embed} (h : embed.Becomes stack siblings declared e) {dep : Dependency}
    (hdep : dep ∈ declared.depsFor e.variant) : Stack.qualify stack dep ∈ e.deps := by
  obtain ⟨own, rfl, hdeps⟩ := h.deps
  exact hdeps ▸ List.mem_append_left _ (List.mem_map_of_mem hdep)

/-- What stands under a name in the tree of a table in order is made of the element of that name. -/
theorem Elements.Grows.madeFrom {elements : Elements} {names : List String} {root r : Resolved}
    {e : Element} (h : (elements.sortDependencies names).Grows root) (within : r.Within root)
    (he : elements.find? r.name = some e) :
    ∃ deps, deps.Perm e.deps ∧ r.MadeFrom { e with deps } := by
  obtain ⟨deps, hsorted, hperm⟩ := find?_sortDependencies_perm names he
  obtain ⟨made, hfound, hmade⟩ := h r within
  obtain rfl := Option.some.inj (hsorted.symm.trans hfound)
  exact ⟨deps, hperm, hmade⟩

namespace Project

variable {archs : Architectures} {elements : Elements} {target : String} {variant : Option String}
  {root t : Resolved} {e₀ e : Element}

/-- A stack in the tree of a target depends on all of its embeds, and whatever stands under the full
name of an embed is made of what that embed becomes. -/
theorem resolve_becomes (known : elements.find? target = some e₀)
    (h : resolve archs elements target variant = .ok root) (within : t.Within root)
    (he : elements.find? t.name = some e) (hkind : e.isStack = true) :
    ∃ chosen embeds deps, e.choose t.variant = .ok chosen ∧
      Embed.readAll chosen.data = .ok embeds ∧
      t.MadeFrom { Stack.withEmbeds chosen embeds with deps } ∧
      (∀ embed ∈ embeds, Embed.dependency chosen embed ∈ deps) ∧
      ∀ embed ∈ embeds, ∃ declared, embed.Reads archs chosen declared ∧
        ∀ r : Resolved, r.Within root → r.name = Embed.fullName chosen embed.name →
          ∃ m deps, embed.Becomes chosen (embeds.map Embed.name) declared m ∧ deps.Perm m.deps ∧
            r.MadeFrom { m with deps } := by
  obtain ⟨hcheck, pool, committed, expanded, built, hpool, hcommit, hexpand, -, hcollect⟩ :=
    resolve_eq_ok_iff.1 h
  obtain ⟨-, hnamed, hgrows⟩ := Elements.collects [] target [] (fun _ _ hnil => by cases hnil)
    root built hcollect
  have hreach : committed.Reaches target t.name := Elements.reaches_of_within hcommit hexpand hgrows
    hnamed within (Option.isSome_iff_exists.2 ⟨e, he⟩)
  obtain ⟨entry, f, chosen, -, hf, -, hchosen, hcommitted⟩ :=
    Elements.committed_of_reaches known hcheck hpool hcommit hreach
  obtain rfl := Option.some.inj (he.symm.trans hf)
  have hstack : chosen.isStack = true := by
    obtain ⟨data, -, rfl⟩ := Element.choose_eq_ok_iff.1 hchosen
    exact hkind
  have hname : t.name ∈ (committed.reachable target).filter committed.isStack := by
    refine List.mem_filter.2 ⟨Elements.mem_reachable_iff.2 hreach, ?_⟩
    rw [Elements.isStack, hcommitted]
    exact hstack
  have hdistinct : ((committed.reachable target).filter committed.isStack).Nodup :=
    (Elements.nodup_reachable target).filter _
  -- the stack and its embeds, which are expanded once and left alone from then on
  obtain ⟨embeds, hembeds, hfinal⟩ := Elements.expandAll_find? hdistinct hname hcommitted hexpand
  obtain ⟨deps, hperm, hmade⟩ := hgrows.madeFrom within hfinal
  obtain ⟨embeds', hembeds', hbecomes⟩ :=
    Elements.find?_of_expandAll hdistinct (fun _ => Elements.isSome_of_mem_stacks) hname hcommitted
      hexpand
  obtain rfl := Except.ok.inj (hembeds.symm.trans hembeds')
  have hvariant : t.variant = entry.variant := calc
    t.variant = chosen.variant := hmade.variant
    _ = entry.variant := Element.variant_of_choose hchosen
  refine ⟨chosen, embeds, deps, hvariant ▸ hchosen, hembeds, hmade, ?_, ?_⟩
  · exact fun embed hembed =>
      hperm.mem_iff.2 (List.mem_append_right _ (List.mem_map_of_mem hembed))
  · intro embed hembed
    obtain ⟨m, hm, declared, hread, hmember⟩ := hbecomes embed hembed
    refine ⟨declared, hread, fun r hr hrname => ?_⟩
    obtain ⟨own, hown, hfrom⟩ := hgrows.madeFrom hr (hrname ▸ hm)
    exact ⟨m, own, hmember, hown, hfrom⟩

theorem resolve_unfolds (known : elements.find? target = some e₀)
    (h : resolve archs elements target variant = .ok root) (within : t.Within root)
    (he : elements.find? t.name = some e) (hkind : e.isStack = true) :
    ∃ chosen embeds, e.choose t.variant = .ok chosen ∧ Embed.readAll chosen.data = .ok embeds ∧
      ∀ embed ∈ embeds, ∃ declared, root.Unfolds archs t chosen embeds embed declared := by
  obtain ⟨chosen, embeds, tdeps, hchosen, hembeds, htmade, htdeps, hmembers⟩ :=
    resolve_becomes known h within he hkind
  have hvariant : chosen.variant = t.variant := htmade.variant.symm
  have hbuilt : ∀ embed ∈ embeds, ∃ declared, embed.Reads archs chosen declared ∧
      ∀ r : Resolved, r.Within root → r.name = Embed.fullName chosen embed.name →
        ∀ v, r.variant = some v ↔ t.variant = some v ∧ declared.Declares (some v) := by
    intro embed hembed
    obtain ⟨declared, hread, hat⟩ := hmembers embed hembed
    refine ⟨declared, hread, fun r hr hrname v => ?_⟩
    obtain ⟨m, deps, hbecomes, -, hfrom⟩ := hat r hr hrname
    rw [hfrom.variant, ← hvariant]
    exact hbecomes.variant_iff
  refine ⟨chosen, embeds, hchosen, hembeds, fun embed hembed => ?_⟩
  obtain ⟨declared, hread, hat⟩ := hmembers embed hembed
  obtain ⟨declared', hread', hvariants⟩ := hbuilt embed hembed
  obtain rfl := Except.ok.inj (hread.symm.trans hread')
  refine ⟨declared, hread, htmade.exists_build (htdeps embed hembed) rfl,
    htmade.exists_runtime (htdeps embed hembed) rfl, hvariants, ?_, ?_⟩
  · intro r hr hrname dep hdep
    obtain ⟨m, deps, hbecomes, hperm, hfrom⟩ := hat r hr hrname
    have hqualified : Stack.qualify chosen dep ∈ deps :=
      hperm.mem_iff.2 (hbecomes.qualify_mem (hfrom.variant ▸ hdep))
    exact ⟨hfrom.exists_build hqualified, hfrom.exists_runtime hqualified⟩
  · intro r hr hrname dep hdep
    obtain ⟨m, deps, hbecomes, -, -⟩ := hat r hr hrname
    obtain ⟨sibling, hsibling, hsame⟩ := List.mem_map.1
      (hbecomes.siblings dep (Element.mem_declaredDeps_of_mem_depsFor hdep))
    obtain ⟨other, hother, hsiblings⟩ := hbuilt sibling hsibling
    refine ⟨sibling, hsibling, hsame, other, hother, fun s hs hsname => ?_⟩
    exact forall₂_congr fun w _ => hsiblings s hs (hsame ▸ hsname) w

end Project

/-- Among the embeds of a stack that a load gives, a request by name comes true exactly if it asks for
the variant of the stack and the sibling declares that one. -/
theorem load_siblings {workspace : Workspace} {options : Options} {root t : Resolved} {file : String}
    (h : (load workspace options).result = .ok root) (within : t.Within root)
    (begun : file ∈ (load workspace options).ticks) (named : Path.stem? file = some t.name) :
    ∃ e, (options.projectIn workspace).Reads file e ∧ (e.isStack = true →
      ∃ chosen embeds, e.choose t.variant = .ok chosen ∧ Embed.readAll chosen.data = .ok embeds ∧
        ∀ embed ∈ embeds, ∃ declared,
          root.Unfolds options.archs t chosen embeds embed declared) := by
  obtain ⟨elements, target, e₀, hticks, hreads, known, hresolve⟩ := resolve_of_load h
  rw [hticks] at begun
  obtain ⟨e, he, rfl⟩ := List.mem_map.1 begun
  exact ⟨e, hreads e he, fun hkind => Project.resolve_unfolds known hresolve within
    (Discovery.find?_of_stem hreads he named) hkind⟩

/-- The text of a stack `s` with two embeds, one of which asks for a variant that the other one does
not declare. -/
def unmetText : String :=
  "kind: stack\nembeds:\n- name: one\n  kind: manual\n  depends:\n  - \x7bname: two, variant: w\x7d\n" ++
    "- name: two\n  kind: manual\n"

def unmetWorkspace : Workspace := Workspace.write {} "s.bst" (some unmetText)

def unmetProject : Project := ⟨[("s.bst", unmetText)], {}⟩

def unmetScalar (s : String) (line column : Nat) : Node :=
  .scalar (.string s) ⟨"s.bst", line, column⟩

/-- The embed that asks for a variant. -/
def askingEmbed : Embed where
  name := "one"
  data := .mapping [("kind", unmetScalar "manual" 4 8), ("depends", .sequence [.mapping
    [("name", unmetScalar "two" 6 11), ("variant", unmetScalar "w" 6 25)] ⟨"s.bst", 6, 4⟩]
    ⟨"s.bst", 6, 4⟩)] ⟨"s.bst", 3, 2⟩
  place := ⟨"s.bst", 3, 2⟩

/-- The embed that is asked. -/
def askedEmbed : Embed where
  name := "two"
  data := .mapping [("kind", unmetScalar "manual" 8 8)] ⟨"s.bst", 7, 2⟩
  place := ⟨"s.bst", 7, 2⟩

def unmetElement : Element where
  name := "s"
  filename := "s.bst"
  kind := "stack"
  data := .mapping [("kind", unmetScalar "stack" 1 6), ("embeds", .sequence [
    .mapping (("name", unmetScalar "one" 3 8) :: askingEmbed.data.members) ⟨"s.bst", 3, 2⟩,
    .mapping (("name", unmetScalar "two" 7 8) :: askedEmbed.data.members) ⟨"s.bst", 7, 2⟩]
    ⟨"s.bst", 3, 2⟩)] ⟨"s.bst", 1, 0⟩
  baseDeps := []
  variants := []

/-- The request that is not met. -/
def unmetDependency : Dependency where
  owner := "s-one"
  name := "two"
  variant := some "w"
  filename := none
  type := none
  place := ⟨"s.bst", 6, 4⟩

theorem unmetElement_loads : Discovery.Loads unmetProject {} ⟨"s.bst", none⟩ unmetElement [] where
  name := by decide +kernel
  new := rfl
  free := rfl
  read := ⟨unmetText, by decide +kernel, by decide +kernel⟩

theorem unmetWorkspace_project :
    Options.projectIn { target := "s.bst" } unmetWorkspace = unmetProject := by
  have hfiles : unmetWorkspace.filesFrom "." = [("s.bst", unmetText)] := by decide +kernel
  rw [Options.projectIn, hfiles]
  rfl

/-- The embeds are listed by name and one needs the other, so expanding the stack leaves it to arrange
them. -/
theorem unmetElement_resolves : ∃ r, Project.resolve {} (.ofList [unmetElement]) "s" none = .ok r ∧
    r.name = "s" ∧ r.variant = none := by
  have hcheck : (Elements.ofList [unmetElement]).checkRequests "s" none = .ok () := rfl
  have hchoose : (Elements.ofList [unmetElement]).chooseVariants "s" none =
      .ok (.ofList [unmetElement]) := rfl
  have hexpand : ((Elements.ofList [unmetElement]).expandStacks {} "s").toOption.map (fun expanded =>
      (decide (∀ e ∈ expanded.toList, e.deps.Pairwise fun a b => a.goesBefore b = true),
        expanded.checkCircular ["s"],
        ((expanded.arrangeDependencies (expanded.reachable "s")).collect [] "s" []).toOption.map
          fun found => (found.1.name, found.1.variant))) =
      some (true, .ok (), some ("s", none)) := by
    decide +kernel
  obtain ⟨expanded, hexpanded, hsame⟩ := Option.map_eq_some_iff.1 hexpand
  simp only [Prod.mk.injEq, decide_eq_true_eq] at hsame
  obtain ⟨hsorted, hcircular, hcollect⟩ := hsame
  rw [← Elements.sortDependencies_of_sorted hsorted] at hcollect
  obtain ⟨found, hfound, hsame⟩ := Option.map_eq_some_iff.1 hcollect
  obtain ⟨hname, hvariant⟩ := Prod.mk.inj hsame
  refine ⟨found.1, ?_, hname, hvariant⟩
  simp only [Project.resolve, bind_eq_ok_iff, pure_eq_ok_iff]
  exact ⟨(), hcheck, _, hchoose, _, toOption_eq_some_iff.1 hexpanded, (), hcircular, found,
    toOption_eq_some_iff.1 hfound, rfl⟩

theorem unmetWorkspace_loads : ∃ root, (load unmetWorkspace { target := "s.bst" }).result = .ok root ∧
    (load unmetWorkspace { target := "s.bst" }).ticks = ["s.bst"] ∧ root.name = "s" ∧
    root.variant = none := by
  have hfound : (Discovery.fromTarget (Options.projectIn { target := "s.bst" } unmetWorkspace)
      "s.bst").result = .ok (.ofList [unmetElement]) :=
    unmetWorkspace_project ▸ Discovery.Discovers.result (.load unmetElement_loads .done)
  obtain ⟨root, hresolve, hname, hvariant⟩ := unmetElement_resolves
  have hload : (load unmetWorkspace { target := "s.bst" }).result = .ok root :=
    load_eq_ok_iff.2 ⟨by decide, by decide, _, "s", hfound, unmetElement_loads.name, hresolve⟩
  refine ⟨root, hload, ?_, hname, hvariant⟩
  rw [load_eq (by decide) (by decide)]
  exact (Discovery.fromTarget_reads hfound).1

/-- An embed that declares no variants is not in the variant that its sibling asks for. -/
theorem unmetWorkspace_siblings : ∃ root r s declared,
    (load unmetWorkspace { target := "s.bst" }).result = .ok root ∧ r ∈ root.build ∧ s ∈ r.build ∧
      r.name = "s-one" ∧ s.name = "s-two" ∧ askingEmbed.Reads {} unmetElement declared ∧
      unmetDependency ∈ declared.depsFor r.variant ∧ ¬unmetDependency.IsMetBy s := by
  obtain ⟨root, hload, hticks, hname, hnone⟩ := unmetWorkspace_loads
  obtain ⟨e, hreads, hunfolds⟩ := load_siblings hload .self (hticks ▸ List.mem_singleton_self "s.bst")
    (hname ▸ by decide +kernel)
  -- what the load reads
  obtain rfl : e = unmetElement := by
    have hown := (unmetElement_loads.reads Include.sound_nil).1
    have hfile : Path.normalize "s.bst" = "s.bst" := by decide +kernel
    rw [hfile] at hown
    exact (unmetWorkspace_project ▸ hreads).unique hown
  obtain ⟨chosen, embeds, hchosen, hembeds, hall⟩ := hunfolds rfl
  obtain rfl : unmetElement = chosen := by
    rw [hnone] at hchosen
    exact Except.ok.inj hchosen
  obtain rfl : [askingEmbed, askedEmbed] = embeds := Except.ok.inj hembeds
  obtain ⟨declared, h⟩ := hall askingEmbed List.mem_cons_self
  have hdeclared : declared.baseDeps = [unmetDependency] := by
    have hread : (Element.ofDocument {} .stack "s-one" "s.bst" askingEmbed.data).toOption.map
        Element.baseDeps = some [unmetDependency] := by
      decide +kernel
    obtain ⟨found, hfound, hdeps⟩ := Option.map_eq_some_iff.1 hread
    obtain rfl := Except.ok.inj (h.reads.symm.trans (toOption_eq_some_iff.1 hfound))
    exact hdeps
  obtain ⟨r, hr, hrname⟩ := h.build
  have hrnone : r.variant = none := by
    refine Option.eq_none_iff_forall_ne_some.2 fun v hv => ?_
    have hroot := ((h.variant r (.build hr .self) hrname v).1 hv).1
    rw [hnone] at hroot
    cases hroot
  have hdep : unmetDependency ∈ declared.depsFor r.variant := by
    have hbase : declared.depsFor none = declared.baseDeps := rfl
    rw [hrnone, hbase, hdeclared]
    exact List.mem_cons_self
  obtain ⟨s, hs, hsname⟩ := (h.needs r (.build hr .self) hrname unmetDependency hdep).1 rfl
  obtain ⟨-, -, -, other, -, hmet⟩ := h.requests r (.build hr .self) hrname unmetDependency hdep
  refine ⟨root, r, s, declared, hload, hr, hs, hrname, hsname, h.reads, hdep, fun hs' => ?_⟩
  have hroot := ((hmet s (.build hr (.build hs .self)) hsname).1 hs' "w" rfl).1
  rw [hnone] at hroot
  cases hroot

end BuildGraph
