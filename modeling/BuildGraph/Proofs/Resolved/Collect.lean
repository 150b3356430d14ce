import BuildGraph.Proofs.Resolved.Settings

/-!
# What is collected

Every resolved element in the tree is made from the element of its name, and needs what that one
depends on. The induction is on the recursion of the collection, and carries the same of everything
built before.
-/

namespace BuildGraph

namespace Resolved

/-- Whether a resolved element is made from an element whose variant is chosen. -/
structure MadeFrom (r : Resolved) (e : Element) : Prop where
  name : r.name = e.name
  variant : r.variant = e.variant
  build : r.build.map Resolved.name = (e.deps.filter Dependency.isBuild).map Dependency.name
  runtime : r.runtime.map Resolved.name = (e.deps.filter Dependency.isRuntime).map Dependency.name
  settings : Settings.ReadFrom e.name e.data r.settings

/-- Whether a resolved element stands in the tree of another one. -/
inductive Within (r : Resolved) : Resolved → Prop
  | self : Within r r
  | build {s t : Resolved} : t ∈ s.build → Within r t → Within r s
  | runtime {s t : Resolved} : t ∈ s.runtime → Within r t → Within r s

end Resolved

namespace Elements

variable {elements : Elements}

/-- Whether everything in the tree of a resolved element is made from the elements of the table. -/
def Grows (elements : Elements) (r : Resolved) : Prop :=
  ∀ s : Resolved, s.Within r → ∃ e, elements.find? s.name = some e ∧ s.MadeFrom e

theorem Grows.self {r : Resolved} (h : elements.Grows r) :
    ∃ e, elements.find? r.name = some e ∧ r.MadeFrom e :=
  h r .self

theorem Grows.of_build {r s : Resolved} (h : elements.Grows r) (hs : s ∈ r.build) :
    elements.Grows s :=
  fun t ht => h t (.build hs ht)

theorem Grows.of_runtime {r s : Resolved} (h : elements.Grows r) (hs : s ∈ r.runtime) :
    elements.Grows s :=
  fun t ht => h t (.runtime hs ht)

theorem Grows.mk {r : Resolved} {e : Element} (he : elements.find? r.name = some e)
    (hmade : r.MadeFrom e) (hbuild : ∀ s ∈ r.build, elements.Grows s)
    (hruntime : ∀ s ∈ r.runtime, elements.Grows s) : elements.Grows r := by
  intro s hs
  cases hs with
  | self => exact ⟨e, he, hmade⟩
  | build ht hs => exact hbuild _ ht s hs
  | runtime ht hs => exact hruntime _ ht s hs

/-- Whether everything built so far is made from the elements of the table. -/
def Remembers (elements : Elements) (built : Built) : Prop :=
  ∀ n r, built.lookup n = some r → r.name = n ∧ elements.Grows r

theorem Remembers.append {built : Built} (h : elements.Remembers built) {r : Resolved}
    (hr : elements.Grows r) : elements.Remembers (built ++ [(r.name, r)]) := by
  intro m s hs
  rcases Keyed.lookup_append_singleton hs with hold | ⟨rfl, rfl⟩
  · exact h m s hold
  · exact ⟨rfl, hr⟩

/-- The needs of a kind have the names of the dependencies of the kind. -/
theorem map_name_needs {needs : List (Dependency × Resolved)} {deps : List Dependency}
    (hdeps : needs.map Prod.fst = deps) (hnames : ∀ need ∈ needs, need.2.name = need.1.name)
    (p : Dependency → Bool) :
    ((needs.filter fun need => p need.1).map Prod.snd).map Resolved.name =
      (deps.filter p).map Dependency.name := by
  have hcongr : ∀ need ∈ needs.filter fun need => p need.1,
      (Resolved.name ∘ Prod.snd) need = (Dependency.name ∘ Prod.fst) need :=
    fun need hneed => hnames need (List.mem_filter.1 hneed).1
  rw [List.map_map, List.map_congr_left hcongr, ← List.map_map, ← hdeps, List.filter_map]
  rfl

/-- What collecting a name gives, when it succeeds. -/
def Collects (elements : Elements) (path : List String) (name : String) (built : Built) : Prop :=
  elements.Remembers built → ∀ r built', elements.collect path name built = .ok (r, built') →
    elements.Remembers built' ∧ r.name = name ∧ elements.Grows r

/-- What collecting dependencies gives, when it succeeds. -/
def CollectsAll (elements : Elements) (path : List String) (deps : List Dependency)
    (built : Built) : Prop :=
  elements.Remembers built → ∀ needs built',
    elements.collectAll path deps built = .ok (needs, built') →
    elements.Remembers built' ∧ needs.map Prod.fst = deps ∧
      ∀ need ∈ needs, need.2.name = need.1.name ∧ elements.Grows need.2

/-- What is built from an element and from what its dependencies resolve to grows from the table. -/
theorem Grows.of_needs {element : Element} {sources : List Source} {data : Node}
    {settings : Settings} {needs : List (Dependency × Resolved)}
    (hknown : elements.find? element.name = some element)
    (htake : Source.take element.name element.data = .ok (sources, data))
    (hsettings : Settings.read sources data = .ok settings)
    (hdeps : needs.map Prod.fst = element.deps)
    (hgrown : ∀ need ∈ needs, need.2.name = need.1.name ∧ elements.Grows need.2) :
    elements.Grows (.mk element.name element.variant settings
      ((needs.filter fun need => need.1.isBuild).map Prod.snd)
      ((needs.filter fun need => need.1.isRuntime).map Prod.snd)) := by
  have hneed : ∀ {p : Dependency → Bool} {s : Resolved},
      s ∈ (needs.filter fun need => p need.1).map Prod.snd → elements.Grows s := by
    intro p s hs
    obtain ⟨need, hneed, rfl⟩ := List.mem_map.1 hs
    exact (hgrown need (List.mem_filter.1 hneed).1).2
  have hnames : ∀ need ∈ needs, need.2.name = need.1.name := fun need h => (hgrown need h).1
  exact .mk hknown
    { name := rfl
      variant := rfl
      build := map_name_needs hdeps hnames Dependency.isBuild
      runtime := map_name_needs hdeps hnames Dependency.isRuntime
      settings := ⟨sources, data, htake, hsettings⟩ }
    (fun _ => hneed) (fun _ => hneed)

/-- A name that is built for the first time is that of an element that is not on the path, and is built
from its data and from what its dependencies resolve to. -/
theorem collect_of_new {path : List String} {name : String} {built built' : Built} {r : Resolved}
    (hnew : built.lookup name = none) (h : elements.collect path name built = .ok (r, built')) :
    ∃ element sources data needs mid settings, elements.find? name = some element ∧
      path.contains name = false ∧ Source.take name element.data = .ok (sources, data) ∧
      elements.collectAll (path ++ [name]) element.deps built = .ok (needs, mid) ∧
      Settings.read sources data = .ok settings ∧
      r = .mk element.name element.variant settings
        ((needs.filter fun need => need.1.isBuild).map Prod.snd)
        ((needs.filter fun need => need.1.isRuntime).map Prod.snd) ∧
      built' = mid ++ [(name, r)] := by
  rw [collect] at h
  simp only [hnew] at h
  split at h
  · cases h
  · next element hknown =>
    split at h
    · cases h
    · next hpath =>
      simp only [bind_eq_ok_iff, pure_eq_ok_iff, Prod.mk.injEq] at h
      obtain ⟨⟨sources, data⟩, htake, ⟨needs, mid⟩, hneeds, settings, hsettings, rfl, rfl⟩ := h
      exact ⟨element, sources, data, needs, mid, settings, hknown, Bool.eq_false_iff.2 hpath, htake,
        hneeds, access_eq_ok_iff.1 hsettings, rfl, rfl⟩

theorem collects (path : List String) (name : String) (built : Built) :
    elements.Collects path name built := by
  refine collect.induct elements elements.Collects elements.CollectsAll ?_ ?_ ?_ ?_ ?_ ?_
    path name built
  · -- built before
    intro path name built r hfound hbuilt r' built' h
    simp only [collect, hfound, Except.ok.injEq, Prod.mk.injEq] at h
    obtain ⟨rfl, rfl⟩ := h
    exact ⟨hbuilt, hbuilt name r hfound⟩
  · -- never loaded
    intro path name built hnew hunknown hbuilt r built' h
    obtain ⟨element, _, _, _, _, _, hknown, -⟩ := collect_of_new hnew h
    exact absurd (hunknown.symm.trans hknown) (by simp)
  · -- reached from itself
    intro path name built hnew element hknown hcycle hbuilt r built' h
    obtain ⟨_, _, _, _, _, _, -, hpath, -⟩ := collect_of_new hnew h
    exact absurd (hcycle.symm.trans hpath) (by simp)
  · -- built now, after what it needs
    intro path name built hnew element hknown hpath ih hbuilt r built' h
    obtain ⟨element', sources, data, needs, mid, settings, hknown', -, htake, hneeds, hsettings, rfl,
      rfl⟩ := collect_of_new hnew h
    obtain rfl := Option.some.inj (hknown.symm.trans hknown')
    obtain ⟨hmid, hdeps, hgrown⟩ := ih hbuilt needs mid hneeds
    obtain rfl : element.name = name := Named.name_of_find? hknown
    have hgrows := Grows.of_needs hknown htake hsettings hdeps hgrown
    exact ⟨hmid.append hgrows, rfl, hgrows⟩
  · intro path built hbuilt needs built' h
    simp only [collectAll, Except.ok.injEq, Prod.mk.injEq] at h
    obtain ⟨rfl, rfl⟩ := h
    exact ⟨hbuilt, rfl, fun _ hnil => (List.not_mem_nil hnil).elim⟩
  · intro path built dep rest ihFirst ihRest hbuilt needs built' h
    simp only [collectAll, bind_eq_ok_iff, pure_eq_ok_iff, Prod.mk.injEq] at h
    obtain ⟨⟨r, mid⟩, hr, ⟨others, last⟩, hothers, rfl, rfl⟩ := h
    obtain ⟨hmid, hname, hgrows⟩ := ihFirst hbuilt r mid hr
    obtain ⟨hlast, hdeps, hgrown⟩ := ihRest mid hmid others last hothers
    refine ⟨hlast, by rw [List.map_cons, hdeps], ?_⟩
    intro need hneed
    rcases List.mem_cons.1 hneed with rfl | hrest
    · exact ⟨hname, hgrows⟩
    · exact hgrown need hrest

end Elements

end BuildGraph
