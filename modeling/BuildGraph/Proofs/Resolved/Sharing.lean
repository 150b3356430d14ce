import BuildGraph.Proofs.Graph.Closure
import BuildGraph.Proofs.Graph.Cycle
import BuildGraph.Proofs.Resolved.Collect
import BuildGraph.Proofs.Variant.Consistency
import Mathlib.Logic.Relation

/-!
# Sharing

What is collected is kept, so that an element that is needed in several places is built once. Where no
name is reached from itself, that makes no difference to what a name resolves to: collecting it gives
what plain recursion gives, whatever was collected before, and everything in the tree is what is kept
under its name. So a tree can be searched by name, and has exactly what is reached.
-/

namespace BuildGraph

theorem Dependency.isBuild_or_isRuntime (dep : Dependency) :
    dep.isBuild = true ∨ dep.isRuntime = true := by
  cases h : dep.type with
  | none => exact .inl (by rw [isBuild, h]; rfl)
  | some type =>
    cases type with
    | build => exact .inl (by rw [isBuild, h]; rfl)
    | runtime => exact .inr (by rw [isRuntime, h]; rfl)

namespace Resolved

variable {n : String} {r s t : Resolved}

/-- The resolved element that is made of an element with its settings from what its dependencies
resolve to. -/
def ofNeeds (e : Element) (settings : Settings) (needs : List (Dependency × Resolved)) : Resolved :=
  .mk e.name e.variant settings ((needs.filter fun need => need.1.isBuild).map Prod.snd)
    ((needs.filter fun need => need.1.isRuntime).map Prod.snd)

theorem MadeFrom.exists_dep {e : Element} (h : r.MadeFrom e) (ht : t ∈ r.build ∨ t ∈ r.runtime) :
    ∃ dep ∈ e.deps, dep.name = t.name := by
  have hdep : ∀ {p : Dependency → Bool}, t.name ∈ (e.deps.filter p).map Dependency.name →
      ∃ dep ∈ e.deps, dep.name = t.name := by
    intro p hname
    obtain ⟨dep, hdep, hname⟩ := List.mem_map.1 hname
    exact ⟨dep, (List.mem_filter.1 hdep).1, hname⟩
  rcases ht with hbuild | hruntime
  · exact hdep (h.build ▸ List.mem_map_of_mem hbuild)
  · exact hdep (h.runtime ▸ List.mem_map_of_mem hruntime)

theorem MadeFrom.exists_build {e : Element} {dep : Dependency} (h : r.MadeFrom e)
    (hdep : dep ∈ e.deps) (hbuild : dep.isBuild = true) : ∃ t ∈ r.build, t.name = dep.name :=
  List.mem_map.1 (h.build ▸ List.mem_map_of_mem (List.mem_filter.2 ⟨hdep, hbuild⟩))

theorem MadeFrom.exists_runtime {e : Element} {dep : Dependency} (h : r.MadeFrom e)
    (hdep : dep ∈ e.deps) (hruntime : dep.isRuntime = true) : ∃ t ∈ r.runtime, t.name = dep.name :=
  List.mem_map.1 (h.runtime ▸ List.mem_map_of_mem (List.mem_filter.2 ⟨hdep, hruntime⟩))

/-- What stands in a tree is its root, or stands in the tree of something that the root needs. -/
theorem within_ofNeeds {e : Element} {settings : Settings} {needs : List (Dependency × Resolved)}
    (h : s.Within (ofNeeds e settings needs)) :
    s = ofNeeds e settings needs ∨ ∃ need ∈ needs, s.Within need.2 := by
  have hneed : ∀ {p : Dependency → Bool} {t : Resolved},
      t ∈ (needs.filter fun need => p need.1).map Prod.snd → s.Within t →
      ∃ need ∈ needs, s.Within need.2 := by
    intro p t ht hs
    obtain ⟨need, hneed, rfl⟩ := List.mem_map.1 ht
    exact ⟨need, (List.mem_filter.1 hneed).1, hs⟩
  cases h with
  | self => exact .inl rfl
  | build ht hs => exact .inr (hneed ht hs)
  | runtime ht hs => exact .inr (hneed ht hs)

theorem findIn?_isSome_of_mem {rs : List Resolved} (hr : r ∈ rs) (h : (find? n r).isSome) :
    (findIn? n rs).isSome := by
  induction rs with
  | nil => cases hr
  | cons first rest ih =>
    rw [findIn?, Option.isSome_or, Bool.or_eq_true]
    rcases List.mem_cons.1 hr with rfl | hrest
    · exact .inl h
    · exact .inr (ih hrest)

/-- Whatever stands in a tree is found, or something else of its name before it. -/
theorem find?_isSome_of_within (h : s.Within r) : (find? s.name r).isSome := by
  have hneed : ∀ {r t : Resolved}, t ∈ r.build ∨ t ∈ r.runtime → (find? s.name t).isSome →
      (find? s.name r).isSome := by
    intro r t ht hfound
    obtain ⟨name, variant, settings, build, runtime⟩ := r
    rw [find?]
    split
    · rfl
    · rw [Option.isSome_or, Bool.or_eq_true]
      exact ht.imp (findIn?_isSome_of_mem · hfound) (findIn?_isSome_of_mem · hfound)
  induction h with
  | self =>
    obtain ⟨name, variant, settings, build, runtime⟩ := s
    have hself : find? name (mk name variant settings build runtime) =
        some (mk name variant settings build runtime) := by
      rw [find?, if_pos rfl]
    exact hself ▸ rfl
  | build ht _ ih => exact hneed (.inl ht) ih
  | runtime ht _ ih => exact hneed (.inr ht) ih

theorem within_of_find? (h : find? n r = some s) : s.Within r ∧ s.name = n := by
  refine find?.induct n (fun r => ∀ s, find? n r = some s → s.Within r ∧ s.name = n)
    (fun rs => ∀ s, findIn? n rs = some s → ∃ r ∈ rs, s.Within r ∧ s.name = n) ?_ ?_ ?_ ?_ r s h
  · intro variant settings build runtime s h
    rw [find?, if_pos rfl] at h
    obtain rfl := Option.some.inj h
    exact ⟨.self, rfl⟩
  · intro name variant settings build runtime hname ihBuild ihRuntime s h
    rw [find?, if_neg hname, Option.or_eq_some_iff] at h
    rcases h with hbuild | ⟨-, hruntime⟩
    · obtain ⟨t, ht, hs, hn⟩ := ihBuild s hbuild
      exact ⟨.build ht hs, hn⟩
    · obtain ⟨t, ht, hs, hn⟩ := ihRuntime s hruntime
      exact ⟨.runtime ht hs, hn⟩
  · intro s h
    rw [findIn?] at h
    cases h
  · intro first rest ihFirst ihRest s h
    rw [findIn?, Option.or_eq_some_iff] at h
    rcases h with hfirst | ⟨-, hrest⟩
    · exact ⟨first, List.mem_cons_self, ihFirst s hfirst⟩
    · obtain ⟨r, hr, hs⟩ := ihRest s hrest
      exact ⟨r, List.mem_cons_of_mem _ hr, hs⟩

end Resolved

namespace Elements

variable {elements : Elements}

/-- What dependencies resolve to if `plain` resolves names. -/
def needsBy (plain : String → Except LoadError Resolved) (deps : List Dependency) :
    Except LoadError (List (Dependency × Resolved)) :=
  match deps with
  | [] => .ok []
  | dep :: rest => do
    let r ← plain dep.name
    let needs ← needsBy plain rest
    pure ((dep, r) :: needs)

/-- Whether a function on names builds their elements by plain recursion, with nothing kept. -/
def IsPlain (elements : Elements) (plain : String → Except LoadError Resolved) : Prop :=
  ∀ name, plain name =
    match elements.find? name with
    | none => .error (.neverLoaded name)
    | some e => do
      let (sources, data) ← Source.take name e.data
      let needs ← needsBy plain e.deps
      let settings ← Settings.read sources data
      pure (.ofNeeds e settings needs)

mutual
/-- The resolved element of a name, built anew wherever it is needed, while those on `path` are being
built. -/
def tree (elements : Elements) (path : List String) (name : String) : Except LoadError Resolved :=
  match _found : elements.find? name with
  | none => .error (.neverLoaded name)
  | some e =>
    if path.contains name then .error (.circularDependency name (chain path name) none)
    else do
      let (sources, data) ← Source.take name e.data
      let needs ← treeAll elements (path ++ [name]) e.deps
      let settings ← Settings.read sources data
      pure (.ofNeeds e settings needs)
termination_by elements.effort path 0
decreasing_by
  have new : name ∉ path := by simp_all
  exact effort_append_lt _found new 0

/-- What the dependencies resolve to, one after the other. -/
def treeAll (elements : Elements) (path : List String) (deps : List Dependency) :
    Except LoadError (List (Dependency × Resolved)) :=
  match deps with
  | [] => .ok []
  | dep :: rest => do
    let r ← tree elements path dep.name
    let needs ← treeAll elements path rest
    pure ((dep, r) :: needs)
termination_by elements.effort path (deps.length + 1)
decreasing_by
  · exact effort_lt (Nat.succ_pos _)
  · exact effort_lt (Nat.lt_succ_self _)
end

theorem tree_of_unknown {path : List String} {name : String} (h : elements.find? name = none) :
    elements.tree path name = .error (.neverLoaded name) := by
  rw [tree]
  split
  · rfl
  · next e he =>
    rw [h] at he
    cases he

theorem tree_of_find? {path : List String} {name : String} {e : Element}
    (he : elements.find? name = some e) (hpath : name ∉ path) :
    elements.tree path name = (do
      let (sources, data) ← Source.take name e.data
      let needs ← elements.treeAll (path ++ [name]) e.deps
      let settings ← Settings.read sources data
      pure (.ofNeeds e settings needs)) := by
  have hnew : path.contains name = false := by simpa using hpath
  rw [tree]
  split
  · next hnone =>
    rw [he] at hnone
    cases hnone
  · next found hfound =>
    obtain rfl := Option.some.inj (he.symm.trans hfound)
    rw [hnew]
    rfl

/-- Where no name is reached from itself, it makes no difference what is being built meanwhile. -/
theorem tree_path (acyclic : ∀ n, ¬elements.Follows n n) (path : List String) (name : String) :
    ∀ other : List String, (∀ p ∈ path ++ other, ¬elements.Reaches name p) →
      elements.tree path name = elements.tree other name := by
  refine tree.induct elements
    (fun path name => ∀ other : List String, (∀ p ∈ path ++ other, ¬elements.Reaches name p) →
      elements.tree path name = elements.tree other name)
    (fun path deps => ∀ other : List String,
      (∀ dep ∈ deps, ∀ p ∈ path ++ other, ¬elements.Reaches dep.name p) →
      elements.treeAll path deps = elements.treeAll other deps) ?_ ?_ ?_ ?_ ?_ path name
  · intro path name hnone other _
    rw [tree_of_unknown hnone, tree_of_unknown hnone]
  · intro path name e he hback other haway
    exact absurd .refl (haway name (List.mem_append_left _ (by simpa using hback)))
  · intro path name e he hpath ih other haway
    have hother : name ∉ other := fun hmem => haway name (List.mem_append_right _ hmem) .refl
    rw [tree_of_find? he (by simpa using hpath), tree_of_find? he hother, ih (other ++ [name])]
    intro dep hdep p hp hreach
    have hlead : elements.LeadsTo name dep.name := leadsTo_of_find? he hdep
    by_cases hname : p = name
    · -- a dependency that reaches the name closes a cycle
      exact acyclic name (.head' hlead (hname ▸ hreach))
    · refine haway p ?_ (.head hlead hreach)
      simp only [List.mem_append, List.mem_singleton, hname, or_false] at hp ⊢
      exact hp
  · intro path other _
    rw [treeAll, treeAll]
  · intro path dep rest ihFirst ihRest other haway
    obtain ⟨hfirst, hrest⟩ := List.forall_mem_cons.1 haway
    rw [treeAll, treeAll, ihFirst other hfirst, ihRest other hrest]

theorem treeAll_eq (path : List String) (deps : List Dependency) :
    elements.treeAll path deps = needsBy (elements.tree path) deps := by
  induction deps with
  | nil => rw [treeAll, needsBy]
  | cons dep rest ih => rw [treeAll, needsBy, ih]

theorem needsBy_congr {plain other : String → Except LoadError Resolved} {deps : List Dependency}
    (h : ∀ dep ∈ deps, plain dep.name = other dep.name) : needsBy plain deps = needsBy other deps := by
  induction deps with
  | nil => rfl
  | cons dep rest ih =>
    obtain ⟨hfirst, hrest⟩ := List.forall_mem_cons.1 h
    rw [needsBy, needsBy, hfirst, ih hrest]

/-- Where no name is reached from itself, the tree of a name is what plain recursion gives. -/
theorem isPlain_tree (acyclic : ∀ n, ¬elements.Follows n n) : elements.IsPlain (elements.tree []) := by
  intro name
  cases he : elements.find? name with
  | none => exact tree_of_unknown he
  | some e =>
    have hneeds : elements.treeAll ([] ++ [name]) e.deps = needsBy (elements.tree []) e.deps := by
      rw [treeAll_eq]
      refine needsBy_congr fun dep hdep => tree_path acyclic _ _ [] fun p hp hreach => ?_
      obtain rfl : p = name := by simpa using hp
      exact acyclic p (.head' (leadsTo_of_find? he hdep) hreach)
    rw [tree_of_find? he List.not_mem_nil, hneeds]

/-- Whether everything that is built is what `plain` gives, and everything in its tree is built as
well. -/
def Faithful (plain : String → Except LoadError Resolved) (built : Built) : Prop :=
  ∀ n r, built.lookup n = some r →
    plain n = .ok r ∧ ∀ s : Resolved, s.Within r → built.lookup s.name = some s

/-- Whether all that was built is still built. -/
def Retains (built built' : Built) : Prop :=
  ∀ n r, built.lookup n = some r → built'.lookup n = some r

theorem Retains.append {built built' : Built} (h : Retains built built') (n : String)
    (r : Resolved) : Retains built (built' ++ [(n, r)]) := by
  intro m s hm
  rw [List.lookup_append, h m s hm, Option.some_or]

theorem faithful_nil (plain : String → Except LoadError Resolved) : Faithful plain [] := by
  intro n r h
  cases h

/-- A name that is not built and not being built is built from what its dependencies resolve to. -/
theorem collect_of_find? {path : List String} {name : String} {built : Built} {e : Element}
    (hnew : built.lookup name = none) (he : elements.find? name = some e) (hpath : name ∉ path) :
    elements.collect path name built = (do
      let (sources, data) ← Source.take name e.data
      let (needs, built) ← elements.collectAll (path ++ [name]) e.deps built
      let settings ← Settings.read sources data
      pure (.ofNeeds e settings needs, built ++ [(name, .ofNeeds e settings needs)])) := by
  have hother : path.contains name = false := by simpa using hpath
  rw [collect]
  simp only [hnew]
  split
  · next hnone =>
    rw [he] at hnone
    cases hnone
  · next found hfound =>
    obtain rfl := Option.some.inj (he.symm.trans hfound)
    rw [hother]
    rfl

section Plain

variable {plain : String → Except LoadError Resolved}

/-- Whether an outcome that comes with what is built is the plain outcome, and has a property if it is
no error. -/
def Mirrors {α : Type} (p : α → Built → Prop) (outcome : Except LoadError (α × Built))
    (plainly : Except LoadError α) : Prop :=
  (∀ err, outcome = .error err → plainly = .error err) ∧
    ∀ a built, outcome = .ok (a, built) → plainly = .ok a ∧ p a built

theorem mirrors_ok {α : Type} {p : α → Built → Prop} {a : α} {built : Built} (h : p a built) :
    Mirrors p (.ok (a, built)) (.ok a) :=
  ⟨nofun, fun b built' heq => by
    obtain ⟨rfl, rfl⟩ := Prod.mk.inj (Except.ok.inj heq)
    exact ⟨rfl, h⟩⟩

theorem mirrors_error {α : Type} (p : α → Built → Prop) (err : LoadError) :
    Mirrors p (.error err) (.error err) :=
  ⟨fun _ h => congrArg _ (Except.error.inj h), nofun⟩

theorem Mirrors.bind {α β : Type} {p : α → Built → Prop} {q : β → Built → Prop}
    {outcome : Except LoadError (α × Built)} {plainly : Except LoadError α}
    {f : α × Built → Except LoadError (β × Built)} {g : α → Except LoadError β}
    (h : Mirrors p outcome plainly)
    (hnext : ∀ a built, plainly = .ok a → p a built → Mirrors q (f (a, built)) (g a)) :
    Mirrors q (outcome >>= f) (plainly >>= g) := by
  cases outcome with
  | error err =>
    rw [h.1 err rfl]
    exact mirrors_error q err
  | ok result =>
    obtain ⟨a, built⟩ := result
    obtain ⟨hplain, hp⟩ := h.2 a built rfl
    have hmirrors := hnext a built hplain hp
    rw [hplain]
    exact hmirrors

theorem mirrors_bind {α β : Type} {q : β → Built → Prop} {step : Except LoadError α}
    {f : α → Except LoadError (β × Built)} {g : α → Except LoadError β}
    (hnext : ∀ a, step = .ok a → Mirrors q (f a) (g a)) :
    Mirrors q (step >>= f) (step >>= g) := by
  cases step with
  | error err => exact mirrors_error q err
  | ok a => exact hnext a rfl

/-- What is built last is what is kept under its name, and everything in its tree was kept before. -/
theorem Faithful.append {built : Built} {e : Element} {settings : Settings}
    {needs : List (Dependency × Resolved)} (h : Faithful plain built)
    (hplain : plain e.name = .ok (.ofNeeds e settings needs))
    (hneeds : ∀ need ∈ needs, built.lookup need.1.name = some need.2) :
    Faithful plain (built ++ [(e.name, .ofNeeds e settings needs)]) ∧
      List.lookup e.name (built ++ [(e.name, .ofNeeds e settings needs)]) =
        some (.ofNeeds e settings needs) := by
  have hretains : Retains built (built ++ [(e.name, .ofNeeds e settings needs)]) :=
    Retains.append (fun _ _ hr => hr) _ _
  have hself : List.lookup e.name (built ++ [(e.name, .ofNeeds e settings needs)]) =
      some (.ofNeeds e settings needs) := by
    rw [List.lookup_append]
    cases hold : built.lookup e.name with
    | none => simp
    | some r =>
      -- what was kept under the name before is the same
      rw [Option.some_or, Except.ok.inj ((h _ _ hold).1.symm.trans hplain)]
  refine ⟨fun n r hr => ?_, hself⟩
  rcases Keyed.lookup_append_singleton hr with hold | ⟨rfl, rfl⟩
  · obtain ⟨hn, hwithin⟩ := h n r hold
    exact ⟨hn, fun s hs => hretains _ _ (hwithin s hs)⟩
  · refine ⟨hplain, fun s hs => ?_⟩
    rcases Resolved.within_ofNeeds hs with rfl | ⟨need, hneed, hs⟩
    · exact hself
    · exact hretains _ _ ((h _ _ (hneeds need hneed)).2 s hs)

/-- What collecting a name comes to, beside plain recursion. -/
def Agrees (elements : Elements) (plain : String → Except LoadError Resolved) (path : List String)
    (name : String) (built : Built) : Prop :=
  (∀ p ∈ path, elements.Follows p name) → Faithful plain built →
    Mirrors (fun r built' => Faithful plain built' ∧ Retains built built' ∧
      built'.lookup name = some r) (elements.collect path name built) (plain name)

/-- What collecting dependencies comes to, beside plain recursion. -/
def AgreesAll (elements : Elements) (plain : String → Except LoadError Resolved)
    (path : List String) (deps : List Dependency) (built : Built) : Prop :=
  (∀ dep ∈ deps, ∀ p ∈ path, elements.Follows p dep.name) → Faithful plain built →
    Mirrors (fun needs built' => Faithful plain built' ∧ Retains built built' ∧
      ∀ need ∈ needs, built'.lookup need.1.name = some need.2)
      (elements.collectAll path deps built) (needsBy plain deps)

theorem agrees (acyclic : ∀ n, ¬elements.Follows n n) (hplain : elements.IsPlain plain)
    (path : List String) (name : String) (built : Built) :
    elements.Agrees plain path name built := by
  refine collect.induct elements (elements.Agrees plain) (elements.AgreesAll plain)
    ?_ ?_ ?_ ?_ ?_ ?_ path name built
  · -- built before
    intro path name built r hfound _ hfaithful
    have hcollect : elements.collect path name built = .ok (r, built) := by
      simp only [collect, hfound]
    rw [hcollect, (hfaithful name r hfound).1]
    exact mirrors_ok ⟨hfaithful, fun _ _ h => h, hfound⟩
  · -- never loaded
    intro path name built hnew hunknown _ _
    have hcollect : elements.collect path name built = .error (.neverLoaded name) := by
      rw [collect]
      simp only [hnew]
      split
      · rfl
      · next e he =>
        rw [hunknown] at he
        cases he
    rw [hcollect, hplain name, hunknown]
    exact mirrors_error _ _
  · -- being built: then the name would follow itself
    intro path name built _ e _ hback hfollows _
    exact absurd (hfollows name (by simpa using hback)) (acyclic name)
  · -- built now
    intro path name built hnew e he hpath ih hfollows hfaithful
    obtain rfl : e.name = name := Named.name_of_find? he
    have hdeps : ∀ dep ∈ e.deps, ∀ p ∈ path ++ [e.name], elements.Follows p dep.name := by
      intro dep hdep p hp
      have hlead : elements.LeadsTo e.name dep.name := leadsTo_of_find? he hdep
      rcases List.mem_append.1 hp with hold | hlast
      · exact (hfollows p hold).tail hlead
      · exact List.mem_singleton.1 hlast ▸ .single hlead
    have hsame := hplain e.name
    rw [he] at hsame
    rw [collect_of_find? hnew he (by simpa using hpath), hsame]
    refine mirrors_bind fun taken htake => (ih hdeps hfaithful).bind ?_
    rintro needs mid hneeds ⟨hmid, hretains, hkept⟩
    refine mirrors_bind fun settings hsettings => mirrors_ok ?_
    have hbuilt : plain e.name = .ok (.ofNeeds e settings needs) :=
      hsame.trans (bind_eq_ok_iff.2 ⟨taken, htake, bind_eq_ok_iff.2 ⟨needs, hneeds,
        bind_eq_ok_iff.2 ⟨settings, hsettings, rfl⟩⟩⟩)
    obtain ⟨hlast, hself⟩ := hmid.append hbuilt hkept
    exact ⟨hlast, hretains.append _ _, hself⟩
  · intro path built _ hfaithful
    rw [collectAll, needsBy]
    exact mirrors_ok ⟨hfaithful, fun _ _ h => h, List.forall_mem_nil _⟩
  · intro path built dep rest ihFirst ihRest hfollows hfaithful
    obtain ⟨hfirst, hrest⟩ := List.forall_mem_cons.1 hfollows
    rw [collectAll, needsBy]
    refine (ihFirst hfirst hfaithful).bind ?_
    rintro r mid - ⟨hmid, hretainsMid, hr⟩
    refine (ihRest mid hrest hmid).bind ?_
    rintro needs last - ⟨hlast, hretains, hneeds⟩
    refine mirrors_ok ⟨hlast, fun n s h => hretains n s (hretainsMid n s h), ?_⟩
    exact List.forall_mem_cons.2 ⟨hretains _ _ hr, hneeds⟩

end Plain

/-- What calls have built. A call that fails leaves what the calls inside it have built, and of these
all that is being built meanwhile leads to their names. -/
inductive Memo (elements : Elements) : Built → Prop
  | empty : Memo elements []
  | collect {path : List String} {name : String} {built built' : Built} {r : Resolved} :
    Memo elements built → (∀ p ∈ path, elements.Follows p name) →
    elements.collect path name built = .ok (r, built') → Memo elements built'

theorem Memo.faithful {plain : String → Except LoadError Resolved} {built : Built}
    (acyclic : ∀ n, ¬elements.Follows n n) (hplain : elements.IsPlain plain)
    (h : elements.Memo built) : Faithful plain built := by
  induction h with
  | empty => exact faithful_nil plain
  | collect _ hpath hcollect ih =>
    exact ((agrees acyclic hplain _ _ _ hpath ih).2 _ _ hcollect).2.1

theorem Memo.remembers {built : Built} (h : elements.Memo built) : elements.Remembers built := by
  induction h with
  | empty =>
    intro n r hnil
    cases hnil
  | collect _ _ hcollect ih => exact (collects _ _ _ ih _ _ hcollect).1

/-- The names in a tree are those that are reached from its root. -/
theorem Grows.within_iff_reaches {r : Resolved} (h : elements.Grows r) {n : String} :
    (∃ s : Resolved, s.Within r ∧ s.name = n) ↔ elements.Reaches r.name n := by
  constructor
  · rintro ⟨s, hs, rfl⟩
    have hlead : ∀ {r t : Resolved}, elements.Grows r → t ∈ r.build ∨ t ∈ r.runtime →
        elements.LeadsTo r.name t.name := by
      intro r t h ht
      obtain ⟨e, he, hmade⟩ := h.self
      obtain ⟨dep, hdep, hname⟩ := hmade.exists_dep ht
      exact hname ▸ leadsTo_of_find? he hdep
    induction hs with
    | self => exact .refl
    | build ht _ ih => exact .head (hlead h (.inl ht)) (ih (h.of_build ht))
    | runtime ht _ ih => exact .head (hlead h (.inr ht)) (ih (h.of_runtime ht))
  · obtain ⟨m, hm⟩ : ∃ m, m = r.name := ⟨_, rfl⟩
    rw [← hm]
    intro hreach
    -- the tree is followed down, dependency by dependency
    induction hreach using Relation.ReflTransGen.head_induction_on generalizing r with
    | refl => exact ⟨r, .self, hm.symm⟩
    | head hlead _ ih =>
      obtain ⟨e, he, hmade⟩ := h.self
      obtain ⟨dep, hdep, rfl⟩ := leadsTo_iff.1 hlead
      rw [hm, depsOf_eq he] at hdep
      rcases dep.isBuild_or_isRuntime with hbuild | hruntime
      · obtain ⟨t, ht, hname⟩ := hmade.exists_build hdep hbuild
        obtain ⟨s, hs, hn⟩ := ih (h.of_build ht) hname.symm
        exact ⟨s, .build ht hs, hn⟩
      · obtain ⟨t, ht, hname⟩ := hmade.exists_runtime hdep hruntime
        obtain ⟨s, hs, hn⟩ := ih (h.of_runtime ht) hname.symm
        exact ⟨s, .runtime ht hs, hn⟩

/-- Whatever was collected before, collecting a name gives what plain recursion gives. Everything in
the tree is what is built under its name, and looking for a name in the tree finds exactly what is
reached. -/
theorem collect_shared (acyclic : ∀ n, ¬elements.Follows n n) {built : Built}
    (memo : elements.Memo built) (name : String) :
    elements.IsPlain (elements.tree []) ∧
    (elements.collect [] name built).map Prod.fst = elements.tree [] name ∧
    ∀ r built', elements.collect [] name built = .ok (r, built') →
      (∀ s : Resolved, s.Within r → built'.lookup s.name = some s) ∧
      (∀ s t : Resolved, s.Within r → t.Within r → s.name = t.name → s = t) ∧
      ∀ n, ((Resolved.find? n r).isSome ↔ elements.Reaches name n) ∧
        ∀ s, Resolved.find? n r = some s →
          s.Within r ∧ s.name = n ∧ elements.tree [] n = .ok s ∧ built'.lookup n = some s := by
  have hplain := isPlain_tree acyclic
  have hfollows : ∀ p ∈ ([] : List String), elements.Follows p name := List.forall_mem_nil _
  obtain ⟨herror, hok⟩ := agrees acyclic hplain [] name built hfollows (memo.faithful acyclic hplain)
  refine ⟨hplain, ?_, fun r built' h => ?_⟩
  · cases hcollect : elements.collect [] name built with
    | error err => exact (herror err hcollect).symm
    | ok result => exact (hok result.1 result.2 hcollect).1.symm
  · obtain ⟨-, hfaithful, -, hr⟩ := hok r built' h
    obtain ⟨-, hname, hgrows⟩ := collects [] name built memo.remembers r built' h
    have hkept : ∀ s : Resolved, s.Within r → built'.lookup s.name = some s := (hfaithful name r hr).2
    refine ⟨hkept, fun s t hs ht heq => ?_, fun n => ⟨?_, fun s hs => ?_⟩⟩
    · have hsame := hkept s hs
      rw [heq, hkept t ht] at hsame
      exact (Option.some.inj hsame).symm
    · rw [← hname, ← hgrows.within_iff_reaches]
      constructor
      · intro hsome
        obtain ⟨s, hs⟩ := Option.isSome_iff_exists.1 hsome
        exact ⟨s, Resolved.within_of_find? hs⟩
      · rintro ⟨s, hs, rfl⟩
        exact Resolved.find?_isSome_of_within hs
    · obtain ⟨hwithin, rfl⟩ := Resolved.within_of_find? hs
      have hs' := hkept s hwithin
      exact ⟨hwithin, rfl, (hfaithful _ s hs').1, hs'⟩

/-- An element of the kind `manual` with resolved dependencies. -/
def manualElement (name : String) (deps : List Dependency) : Element :=
  let place : Provenance := .fileStart name
  { Element.bare name [] [] with
    data := .mapping [("kind", .scalar (.string "manual") place)] place
    deps }

/-- Two ways lead from `a` to `d`, one of them at run time only. -/
def diamondTable : Elements := .ofList [
  manualElement "a" [.between "a" "b" none, .between "a" "c" none],
  manualElement "b" [.between "b" "d" none],
  manualElement "c" [{ Dependency.between "c" "d" none with type := some .runtime }],
  manualElement "d" []]

theorem diamondTable_acyclic (n : String) : ¬diamondTable.Follows n n := by
  have hpass : diamondTable.checkCircular diamondTable.names = .ok () := by decide +kernel
  by_cases hn : n ∈ diamondTable.names
  · exact clear_of_checkCircular hpass n hn n .refl
  · exact clear_of_not_mem hn n .refl

/-- After `b` was collected, `a` is collected with the same `d` on both ways. -/
theorem diamondTable_shared : ∃ built r built' d, diamondTable.Memo built ∧
    Keyed.keys built = ["d", "b"] ∧ diamondTable.collect [] "a" built = .ok (r, built') ∧
    Keyed.keys built' = ["d", "b", "c", "a"] ∧ Resolved.find? "d" r = some d ∧
    diamondTable.tree [] "d" = .ok d ∧ ∀ s : Resolved, s.Within r → s.name = "d" → s = d := by
  have hcompute : ((diamondTable.collect [] "b" []).toOption.bind fun first =>
      (diamondTable.collect [] "a" first.2).toOption.map fun second =>
        (Keyed.keys first.2, Keyed.keys second.2)) = some (["d", "b"], ["d", "b", "c", "a"]) := by
    decide +kernel
  obtain ⟨⟨b, built⟩, hb, hsecond⟩ := Option.bind_eq_some_iff.1 hcompute
  obtain ⟨⟨r, built'⟩, ha, hkeys⟩ := Option.map_eq_some_iff.1 hsecond
  obtain ⟨hbuilt, hbuilt'⟩ := Prod.mk.inj hkeys
  have hmemo : diamondTable.Memo built :=
    .collect .empty (List.forall_mem_nil _) (toOption_eq_some_iff.1 hb)
  have hcollect := toOption_eq_some_iff.1 ha
  obtain ⟨-, -, hshared⟩ := collect_shared diamondTable_acyclic hmemo "a"
  obtain ⟨-, hsame, hfind⟩ := hshared r built' hcollect
  have hreach : diamondTable.Reaches "a" "d" :=
    .head (leadsTo_iff.2 ⟨_, List.mem_cons_self, rfl⟩)
      (.single (leadsTo_iff.2 ⟨_, List.mem_cons_self, rfl⟩) : diamondTable.Reaches "b" "d")
  obtain ⟨hfound, hmade⟩ := hfind "d"
  obtain ⟨d, hd⟩ := Option.isSome_iff_exists.1 (hfound.2 hreach)
  obtain ⟨hwithin, hname, htree, -⟩ := hmade d hd
  exact ⟨built, r, built', d, hmemo, hbuilt, hcollect, hbuilt', hd, htree,
    fun s hs heq => hsame s d hs hwithin (heq.trans hname.symm)⟩

end Elements

end BuildGraph
