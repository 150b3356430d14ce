import BuildGraph.Proofs.Variant.Consistency

/-!
# What a search tries that follows a choice

A choice gives every element a variant. A search that follows it tries the chosen variants, and other
ones where an element below the target leaves a variant open: the first declared, as long as it does
not contradict what is settled for good on the way there from the target.
-/

namespace BuildGraph

/-- A variant for every name. -/
abbrev Choice := String → Option String

/-- Elements from the target on, each in the variant it is tried in, the last one first. -/
abbrev Way := List (String × Option String)

namespace Elements

variable {elements : Elements} {choice : Choice} {target : String}

/-- Whether every dependency names an element of the table. -/
def Closed (elements : Elements) : Prop :=
  ∀ dep ∈ elements.declaredDeps, (elements.find? dep.name).isSome

/-- The elements reached from the target by the dependencies in effect in the chosen variants. -/
inductive Chosen (elements : Elements) (choice : Choice) (target : String) :
    String → Option String → Prop
  | target : Chosen elements choice target target (choice target)
  | step {n : String} {v : Option String} {e : Element} {dep : Dependency} :
    Chosen elements choice target n v → elements.find? n = some e → dep ∈ e.depsFor v →
    Chosen elements choice target dep.name (choice dep.name)

/-- Whether a choice of variants is consistent over the elements in play, each in the variants it is
in play in: the target has its variant, every variant is declared, no element depends on itself, and
every request by name is for the chosen variant. -/
structure ConsistentChoice (elements : Elements) (choice : Choice) (target : String)
    (variant : Option String) (inPlay : String → Option String → Prop) : Prop where
  target : ∀ e, elements.find? target = some e → choice target = targetVariant e variant
  declared : ∀ n v e, inPlay n v → elements.find? n = some e → e.Declares (choice n)
  others : ∀ n v e, inPlay n v → elements.find? n = some e → ∀ dep ∈ e.depsFor v, dep.name ≠ n
  requests : ∀ n v e, inPlay n v → elements.find? n = some e → ∀ dep ∈ e.depsFor v,
    ∀ x, dep.variant = some x → choice dep.name = some x

/-- Whether no dependency asks for an element in another variant than `v`. Then nothing displaces the
element in the variant `v` from a pool. -/
def Undisputed (elements : Elements) (n : String) (v : Option String) : Prop :=
  ∀ dep ∈ elements.declaredDeps, dep.name = n → ∀ x, dep.variant = some x → v = some x

/-- Whether an element in the variant `w` asks for something in another variant than an undisputed
element on the path does. -/
def Contradicts (elements : Elements) (path : Way) (f : Element) (w : Option String) : Prop :=
  ∃ m v e, (m, v) ∈ path ∧ elements.Undisputed m v ∧ elements.find? m = some e ∧
    ∃ own ∈ e.depsFor v, ∃ asked ∈ f.depsFor w, own.name = asked.name ∧
      ∃ x y, own.variant = some x ∧ asked.variant = some y ∧ x ≠ y

/-- What a search tries that follows a choice: the element `n` in the variant `v`, with the elements
on the way to it from the target. Besides the chosen variants these are, where an element other than
the target leaves a variant open, the first variants that do not contradict the elements on the way. -/
inductive Tried (elements : Elements) (choice : Choice) (target : String) :
    Way → String → Option String → Prop
  | target : Tried elements choice target [] target (choice target)
  | chosen {path : Way} {n : String} {v : Option String} {e : Element} {dep : Dependency} :
    Tried elements choice target path n v → elements.find? n = some e → dep ∈ e.depsFor v →
    Tried elements choice target ((n, v) :: path) dep.name (choice dep.name)
  | first {path : Way} {n : String} {v w : Option String} {e f : Element} {dep : Dependency}
    {before after : List (Option String)} :
    Tried elements choice target path n v → n ≠ target → elements.find? n = some e →
    dep ∈ e.depsFor v → dep.variant = none → elements.find? dep.name = some f →
    admitted dep f = before ++ w :: after →
    (∀ u ∈ before, elements.Contradicts ((n, v) :: path) f u) →
    ¬elements.Contradicts ((n, v) :: path) f w →
    Tried elements choice target ((n, v) :: path) dep.name w

/-- The elements in the variants that a search tries that follows a choice, whatever the way. -/
def InPlay (elements : Elements) (choice : Choice) (target n : String) (v : Option String) : Prop :=
  ∃ path, elements.Tried choice target path n v

/-- A configuration that comes in displaces no undisputed element. -/
theorem Undisputed.put {m : String} {v : Option String} (hu : elements.Undisputed m v)
    {dep : Dependency} (hdep : dep ∈ elements.declaredDeps) {c : Configuration}
    (hc : c ∈ elements.candidates dep) {pool : Pool} (hs : pool.settles c = false)
    {entry : Configuration} (hentry : pool.find? m = some entry) (hv : entry.variant = v) :
    (Roster.put pool c).find? m = some entry := by
  obtain ⟨-, helem, hasked, -⟩ := candidate_spec hc
  have hne : c.element ≠ m := by
    intro hm
    obtain ⟨hother, hexplicit⟩ := Pool.ne_of_settles_eq_false hs (hm ▸ hentry)
    cases hx : dep.variant with
    | none => simp [isExplicit_candidate hc, hx] at hexplicit
    | some x => exact hother (hv.trans ((hu dep hdep (helem ▸ hm) x hx).trans (hasked x hx).symm))
  exact (Roster.find?_put_of_ne hne).trans hentry

theorem Undisputed.run {m : String} {v : Option String} (hu : elements.Undisputed m v)
    {s t : SearchState} (h : elements.Run s t) (hwait : ∀ dep ∈ s.1, dep ∈ elements.declaredDeps)
    (hpool : ∀ c ∈ s.2.toList, elements.Listed c) {entry : Configuration}
    (hentry : s.2.find? m = some entry) (hv : entry.variant = v) : t.2.find? m = some entry := by
  induction h with
  | refl => exact hentry
  | tail hrest hstep ih =>
    have hdecl := (Run.listed hrest hwait hpool).1
    cases hstep with
    | settle => exact ih
    | put hc _ hs => exact hu.put (hdecl _ List.mem_cons_self) hc hs ih hv

/-- While an undisputed element asks for a variant, a dependency that asks for another one is never
taken off. -/
theorem Undisputed.pending {m : String} {v : Option String} (hu : elements.Undisputed m v)
    {own asked : Dependency} {x y : String} (hname : own.name = asked.name)
    (hown : own.variant = some x) (hasked : asked.variant = some y) (hne : x ≠ y)
    {s t : SearchState} (h : elements.Run s t) (hwait : ∀ dep ∈ s.1, dep ∈ elements.declaredDeps)
    (hpool : ∀ c ∈ s.2.toList, elements.Listed c) {entry : Configuration}
    (hentry : s.2.find? m = some entry) (hv : entry.variant = v) (hdep : own ∈ entry.deps)
    (hpending : asked ∈ s.1) : asked ∈ t.1 := by
  -- as long as the pool holds the entry, its request rejects every candidate for the other one
  have hrejects : ∀ pool : Pool, pool.find? m = some entry →
      ∀ c ∈ elements.candidates asked, pool.conflict? c ≠ none := by
    intro pool hfound c hc hn
    obtain ⟨-, helem, hvariant, -⟩ := candidate_spec hc
    have hsame := (Pool.conflict?_eq_none_iff.1 hn entry (Named.mem_of_find? hfound) own hdep
      (hname.trans helem.symm)).2 x hown
    rw [hvariant y hasked] at hsame
    exact hne (Option.some.inj hsame).symm
  induction h with
  | refl => exact hpending
  | tail hrest hstep ih =>
    have hfound := hu.run hrest hwait hpool hentry hv
    cases hstep with
    | settle hc hn =>
      rcases List.mem_cons.1 ih with rfl | hlater
      · exact absurd hn (hrejects _ hfound _ hc)
      · exact hlater
    | put hc hn =>
      rcases List.mem_cons.1 ih with rfl | hlater
      · exact absurd hn (hrejects _ hfound _ hc)
      · exact List.mem_append_right _ hlater

/-- The elements on the way are in play themselves. -/
theorem Tried.inPlay_of_mem {path : Way} {n m : String} {v u : Option String}
    (h : elements.Tried choice target path n v) (hm : (m, u) ∈ path) :
    elements.InPlay choice target m u := by
  induction h with
  | target => cases hm
  | chosen hn _ _ ih | first hn _ _ _ _ _ _ _ _ ih =>
    rcases List.mem_cons.1 hm with heq | hpath
    · cases heq
      exact ⟨_, hn⟩
    · exact ih hpath

theorem Chosen.eq_choice {n : String} {v : Option String}
    (h : elements.Chosen choice target n v) : v = choice n := by
  cases h <;> rfl

/-- A choice that is consistent over a whole table is consistent over what is in play in it in the
chosen variants only. -/
theorem consistentChoice_of_table {inPlay : String → Option String → Prop}
    (hchosen : ∀ n v, inPlay n v → v = choice n) {variant : Option String}
    (htarget : ∀ e ∈ elements.toList, e.name = target → choice target = targetVariant e variant)
    (htable : ∀ e ∈ elements.toList, e.Declares (choice e.name) ∧
      ∀ dep ∈ e.depsFor (choice e.name), dep.name ≠ e.name ∧
        (dep.variant = none ∨ dep.variant = choice dep.name)) :
    elements.ConsistentChoice choice target variant inPlay := by
  have hat : ∀ n v e, inPlay n v → elements.find? n = some e →
      e.Declares (choice n) ∧ ∀ dep ∈ e.depsFor v, dep.name ≠ n ∧
        (dep.variant = none ∨ dep.variant = choice dep.name) := by
    intro n v e hn he
    have hname : e.name = n := Named.name_of_find? he
    have hrow := htable e (Named.mem_of_find? he)
    rw [hname] at hrow
    exact hchosen n v hn ▸ hrow
  refine ⟨?_, ?_, ?_, ?_⟩
  · exact fun e he => htarget e (Named.mem_of_find? he) (Named.name_of_find? he)
  · exact fun n v e hn he => (hat n v e hn he).1
  · exact fun n v e hn he dep hdep => ((hat n v e hn he).2 dep hdep).1
  · intro n v e hn he dep hdep x hx
    rcases ((hat n v e hn he).2 dep hdep).2 with hnone | hsame
    · rw [hnone] at hx
      cases hx
    · rw [← hsame, hx]

end Elements

end BuildGraph
