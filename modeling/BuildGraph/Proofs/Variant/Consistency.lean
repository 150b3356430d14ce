import BuildGraph.Proofs.Variant.Run

/-!
# Pools that resolve are consistent

In the middle of a search a pool need not be consistent: what a new entry asks for is only looked at
later, and an entry may be replaced while dependencies of the old one are still waiting. What every
step keeps is that a dependency in effect is met by the pool or still waits to be discharged
(`Elements.Sound`). At the end of a run nothing waits.
-/

namespace BuildGraph

/-- A table of elements; of elements of one name the last one counts. -/
def Elements.ofList (es : List Element) : Elements :=
  es.foldl Roster.put .empty

/-- A dependency that says no more than who asks for what. -/
def Dependency.between (owner name : String) (variant : Option String) : Dependency :=
  { owner, name, variant, filename := none, type := none, place := .fileStart owner }

/-- An element with an empty document. -/
def Element.bare (name : String) (baseDeps : List Dependency)
    (variants : List (String × List Dependency)) : Element :=
  { name, filename := name, kind := "manual", data := .emptyMapping (.fileStart name), baseDeps
    variants := variants.map fun v => ⟨v.1, .emptyMapping (.fileStart name), v.2, .fileStart name⟩ }

namespace Pool

/-- Whether a pool gives a dependency what it asks for: another element than its own, in the variant
it names if it names one. -/
def Meets (pool : Pool) (dep : Dependency) : Prop :=
  dep.name ≠ dep.owner ∧ ∃ entry, pool.find? dep.name = some entry ∧
    ∀ v, dep.variant = some v → entry.variant = some v

/-- An entry that goes with a pool meets every dependency in effect on its element. -/
theorem meets_put {pool : Pool} {c : Configuration} (hn : pool.conflict? c = none)
    {entry : Configuration} (he : entry ∈ pool.toList) {dep : Dependency} (hdep : dep ∈ entry.deps)
    (hname : dep.name = c.element) : Pool.Meets (pool.put c) dep := by
  obtain ⟨howner, hasked⟩ := conflict?_eq_none_iff.1 hn entry he dep hdep hname
  exact ⟨fun h => howner (h.symm.trans hname), c, Roster.find?_put_self hname.symm, hasked⟩

/-- A dependency that was met stays met when an entry comes in that goes with the pool. -/
theorem Meets.put {pool : Pool} {c : Configuration} (hn : pool.conflict? c = none)
    {entry : Configuration} (he : entry ∈ pool.toList) {dep : Dependency} (hdep : dep ∈ entry.deps)
    (h : pool.Meets dep) : Pool.Meets (pool.put c) dep := by
  by_cases hname : dep.name = c.element
  · exact meets_put hn he hdep hname
  · obtain ⟨howner, found, hfound, hasked⟩ := h
    have hne : c.element ≠ dep.name := fun h => hname h.symm
    exact ⟨howner, found, (Roster.find?_put_of_ne hne).trans hfound, hasked⟩

end Pool

namespace Elements

variable {elements : Elements}

/-- Whether every dependency belongs to the element that declares it. -/
def Owned (elements : Elements) : Prop :=
  ∀ e ∈ elements.toList, ∀ dep ∈ e.declaredDeps, dep.owner = e.name

/-- Whether every request by name among the dependencies is for a variant that is declared. -/
def Requestable (elements : Elements) : Prop :=
  ∀ dep ∈ elements.declaredDeps, ∀ v e, dep.variant = some v → elements.find? dep.name = some e →
    (e.variant? v).isSome

/-- Whether a configuration has the dependencies that its table gives it. -/
def Listed (elements : Elements) (c : Configuration) : Prop :=
  ∃ e, elements.find? c.element = some e ∧ c.deps = e.depsFor c.variant

/-- Whether a configuration is one of an element of the table, in a variant it declares. -/
def Genuine (elements : Elements) (c : Configuration) : Prop :=
  ∃ e, elements.find? c.element = some e ∧ e.Declares c.variant ∧ c.deps = e.depsFor c.variant

/-- A pool in which every entry is an element in a variant it declares, in none exactly if it declares
none, with the dependencies in effect in that variant; and each of these is on another element, which
the pool holds too, in the variant asked for if one is. -/
structure Consistent (elements : Elements) (pool : Pool) : Prop where
  entries : ∀ c ∈ pool.toList, ∃ e, elements.find? c.element = some e ∧ e.Declares c.variant ∧
    (c.variant = none ↔ e.variants = []) ∧ c.deps = e.depsFor c.variant
  others : ∀ c ∈ pool.toList, ∀ dep ∈ c.deps, dep.name ≠ c.element
  requests : ∀ c ∈ pool.toList, ∀ dep ∈ c.deps, ∃ entry, pool.find? dep.name = some entry ∧
    ∀ v, dep.variant = some v → entry.variant = some v

/-- What every step of a search keeps: each dependency in effect is met or waits to be discharged. -/
def Sound (s : SearchState) : Prop :=
  ∀ c ∈ s.2.toList, ∀ dep ∈ c.deps, dep ∈ s.1 ∨ s.2.Meets dep

theorem mem_declaredDeps {n : String} {e : Element} (he : elements.find? n = some e)
    {v : Option String} {dep : Dependency} (hdep : dep ∈ e.depsFor v) :
    dep ∈ elements.declaredDeps :=
  List.mem_flatMap.2 ⟨e, Named.mem_of_find? he, Element.mem_declaredDeps_of_mem_depsFor hdep⟩

theorem Listed.mem_declaredDeps {c : Configuration} (h : elements.Listed c) {dep : Dependency}
    (hdep : dep ∈ c.deps) : dep ∈ elements.declaredDeps := by
  obtain ⟨e, he, hdeps⟩ := h
  exact Elements.mem_declaredDeps he (hdeps ▸ hdep)

theorem Listed.owner {c : Configuration} (h : elements.Listed c) (owned : elements.Owned)
    {dep : Dependency} (hdep : dep ∈ c.deps) : dep.owner = c.element := by
  obtain ⟨e, he, hdeps⟩ := h
  rw [hdeps] at hdep
  rw [owned e (Named.mem_of_find? he) dep (Element.mem_declaredDeps_of_mem_depsFor hdep)]
  exact Named.name_of_find? he

theorem Genuine.listed {c : Configuration} (h : elements.Genuine c) : elements.Listed c := by
  obtain ⟨e, he, -, hdeps⟩ := h
  exact ⟨e, he, hdeps⟩

theorem declares_of_mem_admitted {dep : Dependency} {e : Element} {variant : Option String}
    (h : variant ∈ admitted dep e) (asked : ∀ v, dep.variant = some v → (e.variant? v).isSome) :
    e.Declares variant := by
  rw [admitted] at h
  cases hv : dep.variant with
  | some v =>
    rw [hv] at h
    obtain rfl : variant = some v := by simpa using h
    exact asked v hv
  | none =>
    rw [hv] at h
    cases hvs : e.variants with
    | nil =>
      obtain rfl : variant = none := by simpa [hvs] using h
      exact hvs
    | cons w rest =>
      simp only [hvs, List.isEmpty_cons, Bool.false_eq_true, if_false] at h
      obtain ⟨v, hmem, rfl⟩ := List.mem_map.1 h
      rw [← hvs] at hmem
      exact Named.find?_isSome_iff.2 (List.mem_map_of_mem hmem)

/-- What a candidate for a dependency is. -/
theorem candidate_spec {dep : Dependency} {c : Configuration} (h : c ∈ elements.candidates dep) :
    c.request = some dep ∧ c.element = dep.name ∧ (∀ v, dep.variant = some v → c.variant = some v) ∧
      ∃ e, elements.find? dep.name = some e ∧ c.variant ∈ admitted dep e ∧
        c.deps = e.depsFor c.variant := by
  obtain ⟨e, he, variant, hv, rfl⟩ := mem_candidates_iff.1 h
  refine ⟨rfl, Named.name_of_find? he, ?_, e, he, hv, rfl⟩
  intro v hdep
  simpa [admitted, hdep] using hv

theorem isExplicit_candidate {dep : Dependency} {c : Configuration}
    (h : c ∈ elements.candidates dep) : c.isExplicit = dep.variant.isSome := by
  rw [Configuration.isExplicit, (candidate_spec h).1]
  rfl

theorem listed_candidate {dep : Dependency} {c : Configuration} (h : c ∈ elements.candidates dep) :
    elements.Listed c := by
  obtain ⟨-, helem, -, e, he, -, hdeps⟩ := candidate_spec h
  exact ⟨e, helem ▸ he, hdeps⟩

/-- A run waits for dependencies of the table only, and its pools hold only what is listed in it. -/
theorem Run.listed {s t : SearchState} (h : elements.Run s t)
    (hwait : ∀ dep ∈ s.1, dep ∈ elements.declaredDeps)
    (hpool : ∀ c ∈ s.2.toList, elements.Listed c) :
    (∀ dep ∈ t.1, dep ∈ elements.declaredDeps) ∧ ∀ c ∈ t.2.toList, elements.Listed c :=
  h.keeps (fun _ hc _ => hc.mem_declaredDeps) (fun _ _ _ hc => listed_candidate hc) hwait hpool

theorem genuine_candidate (requests : elements.Requestable) {dep : Dependency}
    (hdep : dep ∈ elements.declaredDeps) {c : Configuration} (h : c ∈ elements.candidates dep) :
    elements.Genuine c := by
  obtain ⟨-, helem, -, e, he, hadm, hdeps⟩ := candidate_spec h
  exact ⟨e, helem ▸ he, declares_of_mem_admitted hadm fun v hv => requests dep hdep v e hv he, hdeps⟩

/-- The dependency that a candidate is for is met by every pool that goes with the candidate and
settles it. -/
theorem meets_of_settles {pool : Pool} {dep : Dependency} {c : Configuration}
    (hc : c ∈ elements.candidates dep) (hn : pool.conflict? c = none)
    (hs : pool.settles c = true) {entry : Configuration} (he : entry ∈ pool.toList)
    (hdep : dep ∈ entry.deps) : pool.Meets dep := by
  obtain ⟨-, helem, hasked, -⟩ := candidate_spec hc
  obtain ⟨found, hfound, hsame⟩ := Pool.settles_iff.1 hs
  have howner := (Pool.conflict?_eq_none_iff.1 hn entry he dep hdep helem.symm).1
  refine ⟨fun h => howner (h.symm.trans helem.symm), found, helem ▸ hfound, ?_⟩
  intro v hv
  rcases hsame with hvariant | hexplicit
  · exact hvariant.trans (hasked v hv)
  · simp [isExplicit_candidate hc, hv] at hexplicit

theorem Sound.step {s t : SearchState} (h : Sound s) (hstep : elements.Step s t) : Sound t := by
  cases hstep with
  | @settle dep rest pool c hc hn hs =>
    intro entry he d hd
    rcases h entry he d hd with hwait | hmet
    · rcases List.mem_cons.1 hwait with rfl | hrest
      · exact .inr (meets_of_settles hc hn hs he hd)
      · exact .inl hrest
    · exact .inr hmet
  | @put dep rest pool c hc hn hs =>
    intro entry he d hd
    rcases Roster.mem_put_iff.1 he with rfl | ⟨-, hold⟩
    -- an entry that comes in has all its dependencies wait
    · exact .inl (List.mem_append_left _ hd)
    · rcases h entry hold d hd with hwait | hmet
      · rcases List.mem_cons.1 hwait with rfl | hrest
        -- the dependency whose candidate comes in
        · exact .inr (Pool.meets_put hn hold hd (candidate_spec hc).2.1.symm)
        · exact .inl (List.mem_append_right _ hrest)
      · exact .inr (Pool.Meets.put hn hold hd hmet)

theorem Sound.run {s t : SearchState} (h : Sound s) (hrun : elements.Run s t) : Sound t := by
  induction hrun with
  | refl => exact h
  | tail _ hstep ih => exact ih.step hstep

/-- What is in a pool stays in it, in whatever variant. -/
theorem Run.find?_isSome {s t : SearchState} (h : elements.Run s t) {n : String}
    (hn : (s.2.find? n).isSome) : (t.2.find? n).isSome := by
  induction h with
  | refl => exact hn
  | tail _ hstep ih =>
    cases hstep with
    | settle => exact ih
    | put => exact Roster.find?_put_isSome _ ih

theorem Configures.find?_isSome {c : Configuration} {pool pool' : Pool}
    (h : elements.Configures c pool pool') {n : String} (hn : (pool.find? n).isSome) :
    (pool'.find? n).isSome := by
  cases hs : pool.settles c with
  | true => exact h.settled hs ▸ hn
  | false => exact (h.run hs).find?_isSome (Roster.find?_put_isSome c hn)

theorem declares_targetVariant {e : Element} {variant : Option String}
    (asked : ∀ v, variant = some v → (e.variant? v).isSome) :
    e.Declares (targetVariant e variant) := by
  cases variant with
  | some v => exact asked v rfl
  | none =>
    cases hvs : e.variants with
    | nil => simp [targetVariant, hvs, Element.Declares]
    | cons w rest =>
      have hmem : w.name ∈ Named.names e.variants := by simp [Named.names, Named.name, hvs]
      have hfirst : targetVariant e none = some w.name := by simp [targetVariant, hvs]
      rw [hfirst]
      exact Named.find?_isSome_iff.2 hmem

theorem listed_start {target : String} {e : Element} (known : elements.find? target = some e)
    (variant : Option String) : elements.Listed (start e variant) := by
  have hname : e.name = target := Named.name_of_find? known
  refine ⟨e, ?_, rfl⟩
  simpa [start, hname] using known

theorem genuine_start {target : String} {variant : Option String} {e : Element}
    (known : elements.find? target = some e)
    (asked : ∀ v, variant = some v → (e.variant? v).isSome) :
    elements.Genuine (start e variant) := by
  obtain ⟨f, hf, hdeps⟩ := listed_start known variant
  obtain rfl : e = f := by
    have hname : e.name = target := Named.name_of_find? known
    rw [start, Configuration.of_element, hname, known] at hf
    exact Option.some.inj hf
  exact ⟨e, hf, declares_targetVariant asked, hdeps⟩

theorem resolve_isSome {target : String} {variant : Option String} {e : Element} {pool : Pool}
    (known : elements.find? target = some e) (h : elements.resolve target variant = .ok pool) :
    (pool.find? target).isSome := by
  refine (resolve_run known h).find?_isSome ?_
  rw [find?_start known variant]
  rfl

/-- The entries of a pool that resolves have the dependencies of their elements. -/
theorem resolve_listed {target : String} {variant : Option String} {e : Element} {pool : Pool}
    (known : elements.find? target = some e) (h : elements.resolve target variant = .ok pool) :
    ∀ c ∈ pool.toList, elements.Listed c := by
  have hstart := listed_start known variant
  refine ((resolve_run known h).listed ?_ ?_).2
  · exact fun _ => hstart.mem_declaredDeps
  · exact fun c hc => mem_start hc ▸ hstart

/-- The entries of a pool that resolves are elements in variants that they declare. -/
theorem resolve_genuine {target : String} {variant : Option String} {e : Element} {pool : Pool}
    (known : elements.find? target = some e)
    (valid : elements.checkRequests target variant = .ok ())
    (h : elements.resolve target variant = .ok pool) : ∀ c ∈ pool.toList, elements.Genuine c := by
  obtain ⟨htarget, hrequests⟩ := checkRequests_eq_ok_iff.1 valid
  have hstart := genuine_start known fun v hv => htarget v e hv known
  refine ((resolve_run known h).keeps (fun _ hc _ => hc.listed.mem_declaredDeps)
    (fun _ hdep _ hc => genuine_candidate hrequests hdep hc) ?_ ?_).2
  · exact fun _ => hstart.listed.mem_declaredDeps
  · exact fun c hc => mem_start hc ▸ hstart

/-- A pool that resolves gives every dependency in effect what it asks for. -/
theorem resolve_meets {target : String} {variant : Option String} {e : Element} {pool : Pool}
    (known : elements.find? target = some e) (h : elements.resolve target variant = .ok pool) :
    ∀ c ∈ pool.toList, ∀ dep ∈ c.deps, pool.Meets dep := by
  have hsound : Sound ([], pool) :=
    Sound.run (fun c hc dep hdep => .inl (mem_start hc ▸ hdep)) (resolve_run known h)
  exact fun c hc dep hdep => (hsound c hc dep hdep).resolve_left List.not_mem_nil

/-- A pool that resolves holds the target and is consistent. -/
theorem resolve_consistent {target : String} {variant : Option String} {e : Element} {pool : Pool}
    (owned : elements.Owned) (known : elements.find? target = some e)
    (valid : elements.checkRequests target variant = .ok ())
    (h : elements.resolve target variant = .ok pool) :
    (pool.find? target).isSome ∧ elements.Consistent pool := by
  have hgenuine := resolve_genuine known valid h
  have hmet := resolve_meets known h
  refine ⟨resolve_isSome known h, ?_, ?_, ?_⟩
  · intro c hc
    obtain ⟨f, hf, hdecl, hdeps⟩ := hgenuine c hc
    exact ⟨f, hf, hdecl, hdecl.eq_none_iff, hdeps⟩
  · intro c hc dep hdep
    exact (hgenuine c hc).listed.owner owned hdep ▸ (hmet c hc dep hdep).1
  · exact fun c hc dep hdep => (hmet c hc dep hdep).2

/-- The element `a` has to follow `b` into the variant `x` of `c`, against its own order. -/
def forcedTable : Elements := .ofList [
  .bare "b" [.between "b" "a" none, .between "b" "c" (some "x")] [],
  .bare "a" [] [("y", [.between "a" "c" (some "y")]), ("x", [.between "a" "c" (some "x")])],
  .bare "c" [] [("x", []), ("y", [])]]

theorem forcedTable_consistent : ∃ pool, forcedTable.resolve "b" none = .ok pool ∧
    (pool.find? "b").isSome ∧ forcedTable.Consistent pool := by
  have howned : forcedTable.Owned := by
    unfold Owned
    decide
  have hvalid : forcedTable.checkRequests "b" none = .ok () := rfl
  exact ⟨_, rfl, resolve_consistent howned rfl hvalid rfl⟩

end Elements

end BuildGraph
