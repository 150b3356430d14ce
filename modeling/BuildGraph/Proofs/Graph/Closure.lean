import BuildGraph.Graph.Order
import BuildGraph.Proofs.Graph.Reach

/-!
# Closures are known exactly

Where no cycle is reached, what is listed for a name is what follows it. The names that are being
listed meanwhile all lead to the name at hand, so none of them is met again: the answer that such a name
reaches nothing is never given.
-/

namespace BuildGraph.Elements

variable {elements : Elements}

/-- Whether what is known of names is what follows them. -/
def Knows (elements : Elements) (known : Closures) : Prop :=
  ∀ n all, known.lookup n = some all → ∀ m, m ∈ all ↔ elements.Follows n m

/-- Whether all that is known in one list is known in another one. -/
def Keeps (known known' : Closures) : Prop :=
  ∀ n all, known.lookup n = some all → known'.lookup n = some all

theorem Keeps.append {known known' : Closures} (h : Keeps known known') (n : String)
    (all : List String) : Keeps known (known' ++ [(n, all)]) := by
  intro m found hm
  rw [List.lookup_append, h m found hm, Option.some_or]

theorem Knows.append {known : Closures} (h : elements.Knows known) {n : String} {all : List String}
    (hall : ∀ m, m ∈ all ↔ elements.Follows n m) : elements.Knows (known ++ [(n, all)]) := by
  intro k found hk
  rcases Keyed.lookup_append_singleton hk with hold | ⟨rfl, rfl⟩
  · exact h k found hold
  · exact hall

/-- What follows a name is what it depends on and what follows that. -/
theorem follows_iff {n m : String} :
    elements.Follows n m ↔
      ∃ dep ∈ elements.depsOf n, m = dep.name ∨ elements.Follows dep.name m := by
  rw [Follows, Relation.TransGen.head'_iff]
  constructor
  · rintro ⟨k, hk, hreach⟩
    obtain ⟨dep, hdep, rfl⟩ := leadsTo_iff.1 hk
    exact ⟨dep, hdep, Relation.reflTransGen_iff_eq_or_transGen.1 hreach⟩
  · rintro ⟨dep, hdep, h⟩
    exact ⟨dep.name, leadsTo_iff.2 ⟨dep, hdep, rfl⟩, Relation.reflTransGen_iff_eq_or_transGen.2 h⟩

/-- What listing the closure of a name gives, while those of the names on a path are being listed. -/
def Lists (elements : Elements) (path : List String) (name : String) (known : Closures) : Prop :=
  elements.Clear name → (∀ p ∈ path, elements.Follows p name) → elements.Knows known →
    ∃ all known', elements.closure path name known = (all, known') ∧
      (∀ m, m ∈ all ↔ elements.Follows name m) ∧ elements.Knows known' ∧ Keeps known known' ∧
      (known'.lookup name).isSome

/-- What listing the closures of dependencies gives. -/
def ListsAll (elements : Elements) (path : List String) (deps : List Dependency)
    (known : Closures) : Prop :=
  (∀ dep ∈ deps, elements.Clear dep.name) → (∀ dep ∈ deps, ∀ p ∈ path, elements.Follows p dep.name) →
    elements.Knows known →
    ∃ all known', elements.closureAll path deps known = (all, known') ∧
      (∀ m, m ∈ all ↔ ∃ dep ∈ deps, m = dep.name ∨ elements.Follows dep.name m) ∧
      elements.Knows known' ∧ Keeps known known'

theorem lookup_append_isSome (known : Closures) (n : String) (all : List String) :
    ((known ++ [(n, all)]).lookup n).isSome := by
  rw [List.lookup_append]
  cases known.lookup n <;> simp

theorem lists (path : List String) (name : String) (known : Closures) :
    elements.Lists path name known := by
  refine closure.induct elements elements.Lists elements.ListsAll ?_ ?_ ?_ ?_ ?_ ?_ path name known
  · -- listed before
    intro path name known all hfound _ _ hknown
    refine ⟨all, known, ?_, hknown name all hfound, hknown, fun _ _ h => h, ?_⟩
    · rw [closure, hfound]
    · rw [hfound]
      rfl
  · -- being listed: then the name would follow itself
    intro path name known _ hback hclear hpath _
    exact absurd (hpath name (by simpa using hback)) (hclear name .refl)
  · -- no element has the name
    intro path name known hnew hpath hnone hclear _ hknown
    have hempty : ∀ m, m ∈ ([] : List String) ↔ elements.Follows name m := by
      intro m
      rw [follows_iff, depsOf, hnone]
      simp
    refine ⟨[], known ++ [(name, [])], ?_, hempty, hknown.append hempty,
      Keeps.append (fun _ _ h => h) name [], lookup_append_isSome known name []⟩
    rw [closure, hnew]
    simp only [hpath, Bool.false_eq_true, if_false]
    split
    · rfl
    · next e he =>
      rw [hnone] at he
      cases he
  · -- listed now
    intro path name known hnew hpath e he all mid hall ih hclear hfollows hknown
    have hdeps : ∀ dep ∈ e.deps, elements.LeadsTo name dep.name :=
      fun dep hdep => leadsTo_of_find? he hdep
    obtain ⟨all', mid', hall', hmem, hmid, hkeeps⟩ := ih
      (fun dep hdep => hclear.of_reaches (.single (hdeps dep hdep)))
      (by
        intro dep hdep p hp
        rcases List.mem_append.1 hp with hold | hlast
        · exact (hfollows p hold).tail (hdeps dep hdep)
        · exact List.mem_singleton.1 hlast ▸ .single (hdeps dep hdep))
      hknown
    obtain ⟨rfl, rfl⟩ := Prod.mk.inj (hall.symm.trans hall')
    have hexact : ∀ m, m ∈ all ↔ elements.Follows name m := by
      intro m
      rw [hmem, follows_iff, depsOf_eq he]
    refine ⟨all, mid ++ [(name, all)], ?_, hexact, hmid.append hexact, hkeeps.append name all,
      lookup_append_isSome mid name all⟩
    rw [closure, hnew]
    simp only [hpath, Bool.false_eq_true, if_false]
    split
    · next hnone =>
      rw [he] at hnone
      cases hnone
    · next found hfound =>
      obtain rfl : e = found := Option.some.inj (he.symm.trans hfound)
      rw [hall]
  · intro path known _ _ hknown
    refine ⟨[], known, ?_, ?_, hknown, fun _ _ h => h⟩
    · rw [closureAll]
    · simp
  · intro path known dep rest own mid hown others last hothers ihFirst ihRest hclear hfollows hknown
    obtain ⟨hclearFirst, hclearRest⟩ := List.forall_mem_cons.1 hclear
    obtain ⟨hfollowsFirst, hfollowsRest⟩ := List.forall_mem_cons.1 hfollows
    obtain ⟨own', mid', hown', hmemOwn, hmid, hkeepsMid, -⟩ := ihFirst hclearFirst hfollowsFirst hknown
    obtain ⟨rfl, rfl⟩ := Prod.mk.inj (hown.symm.trans hown')
    obtain ⟨others', last', hothers', hmemOthers, hlast, hkeepsLast⟩ :=
      ihRest hclearRest hfollowsRest hmid
    obtain ⟨rfl, rfl⟩ := Prod.mk.inj (hothers.symm.trans hothers')
    refine ⟨dep.name :: own ++ unseen others (dep.name :: own), last, ?_, ?_, hlast,
      fun n all h => hkeepsLast n all (hkeepsMid n all h)⟩
    · rw [closureAll, hown]
      simp only [hothers]
    · intro m
      rw [mem_append_unseen, List.mem_cons, hmemOwn, hmemOthers]
      simp only [List.mem_cons, exists_eq_or_imp]

/-- The closures of names from which no cycle is reached are what follows the names. -/
theorem lookup_closures {names : List String} (hclear : ∀ n ∈ names, elements.Clear n) {n : String}
    (hn : n ∈ names) :
    ∃ all, (elements.closures names).lookup n = some all ∧ ∀ m, m ∈ all ↔ elements.Follows n m := by
  have hfold : ∀ (names : List String) (known : Closures), (∀ n ∈ names, elements.Clear n) →
      elements.Knows known →
      elements.Knows (names.foldl (fun known n => (elements.closure [] n known).2) known) ∧
      Keeps known (names.foldl (fun known n => (elements.closure [] n known).2) known) ∧
      ∀ n ∈ names,
        ((names.foldl (fun known n => (elements.closure [] n known).2) known).lookup n).isSome := by
    intro names
    induction names with
    | nil => exact fun known _ hknown => ⟨hknown, fun _ _ h => h, by simp⟩
    | cons name rest ih =>
      intro known hclear hknown
      obtain ⟨hname, hrest⟩ := List.forall_mem_cons.1 hclear
      obtain ⟨all, mid, hlist, -, hmid, hkeeps, hsome⟩ := lists [] name known hname (by simp) hknown
      obtain ⟨hlast, hkeepsLast, hall⟩ := ih mid hrest hmid
      rw [List.foldl_cons, hlist]
      refine ⟨hlast, fun n found h => hkeepsLast n found (hkeeps n found h), ?_⟩
      refine List.forall_mem_cons.2 ⟨?_, hall⟩
      obtain ⟨found, hfound⟩ := Option.isSome_iff_exists.1 hsome
      exact Option.isSome_iff_exists.2 ⟨found, hkeepsLast name found hfound⟩
  obtain ⟨hknows, -, hsome⟩ := hfold names [] hclear (fun _ _ h => by cases h)
  obtain ⟨all, hall⟩ := Option.isSome_iff_exists.1 (hsome n hn)
  exact ⟨all, hall, hknows n all hall⟩

end BuildGraph.Elements
