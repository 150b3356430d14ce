import BuildGraph.Proofs.Stack.Expand

/-!
# What expanded stacks depend on

The element of an embed depends on its siblings and on what its stack depends on, so an expansion
leads to nothing that was not there before but to the elements it brings in.
-/

namespace BuildGraph

variable {archs : Architectures}

/-- Whether elements whose names have a property depend only on names that have it. -/
def Elements.Preserves (elements : Elements) (p : String → Prop) : Prop :=
  ∀ n e, elements.find? n = some e → p n → ∀ dep ∈ e.deps, p dep.name

namespace Stack

variable {elements : Elements} {stack e : Element} {siblings : List String}

theorem declaredDeps_qualifyAll (stack e : Element) :
    (qualifyAll stack e).declaredDeps = e.declaredDeps.map (qualify stack) := by
  simp [Element.declaredDeps, qualifyAll, List.flatMap_map, List.map_flatMap]

theorem mem_inherit {dep : Dependency} (h : dep ∈ (inherit stack e).deps) :
    dep ∈ e.deps ∨ ∃ d ∈ stack.deps, dep = { d with owner := e.name } := by
  rw [inherit] at h
  generalize stack.deps = new at h ⊢
  generalize e.deps = deps at h ⊢
  induction new generalizing deps with
  | nil => exact .inl h
  | cons d rest ih =>
    rcases ih _ h with hdeps | ⟨d', hd', rfl⟩
    · dsimp only at hdeps
      split at hdeps
      · exact .inl hdeps
      · rcases List.mem_append.1 hdeps with hold | hlast
        · exact .inl hold
        · exact .inr ⟨d, List.mem_cons_self, List.mem_singleton.1 hlast⟩
    · exact .inr ⟨d', List.mem_cons_of_mem _ hd', rfl⟩

theorem checkSiblings_eq_ok_iff {embed : Embed} :
    checkSiblings stack siblings embed e = .ok () ↔ ∀ dep ∈ e.declaredDeps, dep.name ∈ siblings := by
  rw [checkSiblings]
  split
  · next dep hdep =>
    have hunknown : dep.name ∉ siblings := by simpa using List.find?_some hdep
    simp only [reduceCtorEq, false_iff]
    exact fun h => hunknown (h dep (List.mem_of_find?_eq_some hdep))
  · next hnone => simpa using hnone

/-- What the element of an embed depends on. -/
theorem elementOf_deps {made : List Element} {embed : Embed}
    (h : elementOf archs elements stack siblings made embed = .ok e) {dep : Dependency}
    (hdep : dep ∈ e.deps) :
    (∃ sibling ∈ siblings, dep.name = Embed.fullName stack sibling) ∨
      ∃ d ∈ stack.deps, dep.name = d.name := by
  simp only [elementOf, bind_eq_ok_iff, map_eq_ok_iff] at h
  obtain ⟨_, -, read, -, _, -, _, hsiblings, chosen, hchosen, rfl⟩ := h
  rcases mem_inherit hdep with hown | ⟨d, hd, rfl⟩
  · obtain ⟨data, -, rfl⟩ := Element.choose_eq_ok_iff.1 hchosen
    have hdecl := Element.mem_declaredDeps_of_mem_depsFor hown
    rw [declaredDeps_qualifyAll] at hdecl
    obtain ⟨d, hd, rfl⟩ := List.mem_map.1 hdecl
    exact .inl ⟨d.name, checkSiblings_eq_ok_iff.1 hsiblings d hd, rfl⟩
  · exact .inr ⟨d, hd, rfl⟩

/-- What the elements of embeds depend on, and that the names of all of them were free. -/
theorem elementsOf_deps {embeds : List Embed} {before made : List Element}
    (h : elementsOf archs elements stack siblings embeds before = .ok made) :
    (∀ embed ∈ embeds, elements.find? (Embed.fullName stack embed.name) = none) ∧
    ∀ e ∈ made, e ∈ before ∨ ∀ dep ∈ e.deps,
      (∃ sibling ∈ siblings, dep.name = Embed.fullName stack sibling) ∨
        ∃ d ∈ stack.deps, dep.name = d.name := by
  induction embeds generalizing before with
  | nil =>
    obtain rfl := Except.ok.inj h
    exact ⟨fun _ hnil => absurd hnil List.not_mem_nil, fun _ he => .inl he⟩
  | cons embed rest ih =>
    simp only [elementsOf, bind_eq_ok_iff] at h
    obtain ⟨new, hnew, hrest⟩ := h
    obtain ⟨hfree, hdeps⟩ := ih hrest
    obtain ⟨hname, hnone⟩ := elementOf_fresh hnew
    refine ⟨List.forall_mem_cons.2 ⟨hname ▸ hnone, hfree⟩, fun e he => ?_⟩
    rcases hdeps e he with hbefore | hlater
    · rcases List.mem_append.1 hbefore with hold | hlast
      · exact .inl hold
      · exact .inr fun dep hdep => elementOf_deps (List.mem_singleton.1 hlast ▸ hnew) hdep
    · exact .inr hlater

end Stack

namespace Elements

variable {elements elements' : Elements} {p : String → Prop}

theorem mem_or_find?_of_foldl_put {es : List Element} {n : String} {e : Element}
    (h : (es.foldl Roster.put elements).find? n = some e) :
    e ∈ es ∨ elements.find? n = some e := by
  induction es generalizing elements with
  | nil => exact .inr h
  | cons first rest ih =>
    rcases ih h with hrest | hput
    · exact .inl (List.mem_cons_of_mem _ hrest)
    · rw [Roster.find?_put] at hput
      split at hput
      · exact .inl (Option.some.inj hput ▸ List.mem_cons_self)
      · exact .inr hput

theorem expandStack_preserves {name : String} {made : List String} (hkeeps : elements.Preserves p)
    (hname : p name) (hfree : ∀ n, elements.find? n = none → p n)
    (h : elements.expandStack archs name = .ok (elements', made)) : elements'.Preserves p := by
  cases hstack : elements.find? name with
  | none =>
    simp only [expandStack, hstack, Except.ok.injEq, Prod.mk.injEq] at h
    exact h.1 ▸ hkeeps
  | some stack =>
    simp only [expandStack, hstack, bind_eq_ok_iff, pure_eq_ok_iff, Prod.mk.injEq] at h
    obtain ⟨embeds, -, new, hnew, rfl, -⟩ := h
    obtain ⟨hembeds, hnewDeps⟩ := Stack.elementsOf_deps hnew
    have hdeps : ∀ dep ∈ stack.deps, p dep.name := hkeeps name stack hstack hname
    intro n e he hn dep hdep
    rw [Roster.find?_put] at he
    split at he
    -- the stack itself
    · obtain rfl := Option.some.inj he
      rcases List.mem_append.1 hdep with hold | hembed
      · exact hdeps dep hold
      · obtain ⟨embed, hmem, rfl⟩ := List.mem_map.1 hembed
        exact hfree _ (hembeds embed hmem)
    · rcases mem_or_find?_of_foldl_put he with hmade | hold
      -- the element of an embed
      · rcases (hnewDeps e hmade).resolve_left List.not_mem_nil dep hdep with
          ⟨sibling, hsibling, hdepName⟩ | ⟨d, hd, hdepName⟩
        · obtain ⟨embed, hmem, rfl⟩ := List.mem_map.1 hsibling
          exact hdepName ▸ hfree _ (hembeds embed hmem)
        · exact hdepName ▸ hdeps d hd
      · exact hkeeps n e hold hn dep hdep

theorem expandStack_find?_isSome {name n : String} {made : List String}
    (h : elements.expandStack archs name = .ok (elements', made)) (hn : (elements.find? n).isSome) :
    (elements'.find? n).isSome := by
  obtain ⟨e, he⟩ := Option.isSome_iff_exists.1 hn
  by_cases hne : n = name
  · obtain ⟨embeds, -, hfound⟩ := expandStack_find? (hne ▸ he) h
    exact hne ▸ Option.isSome_iff_exists.2 ⟨_, hfound⟩
  · exact Option.isSome_iff_exists.2 ⟨_, expandStack_find?_of_ne hne he h⟩

theorem expandAll_preserves {names : List String} (hkeeps : elements.Preserves p)
    (hnames : ∀ n ∈ names, p n) (hfree : ∀ n, elements.find? n = none → p n)
    (h : elements.expandAll archs names = .ok elements') : elements'.Preserves p := by
  induction names generalizing elements with
  | nil => exact Except.ok.inj h ▸ hkeeps
  | cons name rest ih =>
    simp only [expandAll, bind_eq_ok_iff] at h
    obtain ⟨⟨mid, made⟩, hstep, _, -, hrest⟩ := h
    obtain ⟨hfirst, hothers⟩ := List.forall_mem_cons.1 hnames
    refine ih (expandStack_preserves hkeeps hfirst hfree hstep) hothers (fun n hn => hfree n ?_) hrest
    have hkept := mt (expandStack_find?_isSome (n := n) hstep)
    simpa [hn] using hkept

end Elements

end BuildGraph
