import BuildGraph.Proofs.Variant.Consistency

/-!
# The variant of the target

The target comes into the pool without a dependency that asks for it, so nothing in the pool stands
for the variant it was asked for in. A dependency that asks for the target by name in another variant
displaces it, as it would displace a variant that was only tried first.
-/

namespace BuildGraph.Elements

variable {elements : Elements}

/-- Whether a configuration was asked for by name by a dependency of the table. -/
def Demanded (elements : Elements) (c : Configuration) : Prop :=
  ∃ dep ∈ elements.declaredDeps, c.request = some dep ∧ dep.name = c.element ∧
    c.variant.isSome ∧ dep.variant = c.variant

/-- Only what is asked for by name takes the place of an entry. -/
theorem demanded_of_settles {pool : Pool} {dep : Dependency} {c : Configuration}
    (hdep : dep ∈ elements.declaredDeps) (hc : c ∈ elements.candidates dep)
    (hs : pool.settles c = false) (hentry : (pool.find? c.element).isSome) :
    elements.Demanded c := by
  obtain ⟨hreq, helem, hasked, -⟩ := candidate_spec hc
  obtain ⟨entry, hentry⟩ := Option.isSome_iff_exists.1 hentry
  have hexplicit := (Pool.ne_of_settles_eq_false hs hentry).2
  cases hv : dep.variant with
  | none => simp [isExplicit_candidate hc, hv] at hexplicit
  | some v =>
    have hcv : c.variant = some v := hasked v hv
    exact ⟨dep, hdep, hreq, helem.symm, by rw [hcv]; rfl, hv.trans hcv.symm⟩

/-- An entry stays in a pool until one comes in that is asked for by name. -/
theorem Run.entry {s t : SearchState} (h : elements.Run s t)
    (hwait : ∀ dep ∈ s.1, dep ∈ elements.declaredDeps)
    (hpool : ∀ c ∈ s.2.toList, elements.Listed c) {n : String} {c : Configuration}
    (hc : s.2.find? n = some c) :
    ∃ entry, t.2.find? n = some entry ∧ (entry = c ∨ elements.Demanded entry) := by
  induction h with
  | refl => exact ⟨c, hc, .inl rfl⟩
  | tail hrest hstep ih =>
    obtain ⟨old, hold, horigin⟩ := ih
    have hdecl := (Run.listed hrest hwait hpool).1
    cases hstep with
    | settle => exact ⟨old, hold, horigin⟩
    | @put dep rest pool new hnew _ hs =>
      by_cases hname : new.element = n
      · refine ⟨new, ?_, .inr ?_⟩
        · exact Roster.find?_put_self hname
        · refine demanded_of_settles (hdecl _ List.mem_cons_self) hnew hs ?_
          rw [hname]
          exact Option.isSome_iff_exists.2 ⟨old, hold⟩
      · exact ⟨old, (Roster.find?_put_of_ne hname).trans hold, horigin⟩

/-- A pool that resolves has the target in the variant it was asked for in, or else a dependency of the
table asks for the target by name in the variant that the pool has it in. -/
theorem resolve_target {target : String} {variant : Option String} {e : Element} {pool : Pool}
    (known : elements.find? target = some e) (h : elements.resolve target variant = .ok pool) :
    ∃ entry, pool.find? target = some entry ∧ elements.Listed entry ∧
      (entry = start e variant ∨ elements.Demanded entry) := by
  have hrun := resolve_run known h
  have hstart := listed_start known variant
  have hpool : ∀ c ∈ (Roster.put .empty (start e variant)).toList, elements.Listed c :=
    fun c hc => mem_start hc ▸ hstart
  obtain ⟨entry, hentry, horigin⟩ :=
    hrun.entry (fun _ => hstart.mem_declaredDeps) hpool (find?_start known variant)
  refine ⟨entry, hentry, ?_, horigin⟩
  exact (hrun.listed (fun _ => hstart.mem_declaredDeps) hpool).2 entry (Named.mem_of_find? hentry)

/-- Whether a pool has the target in a variant that a dependency of the table asks for by name in place
of the variant `v`. -/
def Displaced (elements : Elements) (pool : Pool) (target v : String) : Prop :=
  ∃ entry, pool.find? target = some entry ∧ ∃ dep ∈ elements.declaredDeps,
    entry.request = some dep ∧ dep.name = target ∧ ∃ w, dep.variant = some w ∧ w ≠ v

/-- The target has the variant it was asked for in exactly if no dependency displaces it. -/
theorem variant_eq_iff_not_displaced {target v : String} {e : Element} {pool : Pool}
    {entry : Configuration} (hentry : pool.find? target = some entry)
    (horigin : entry = start e (some v) ∨ elements.Demanded entry) :
    entry.variant = some v ↔ ¬elements.Displaced pool target v := by
  have hname : entry.element = target := Named.name_of_find? hentry
  constructor
  · rintro hv ⟨found, hfound, dep, -, hreq, -, w, hw, hne⟩
    obtain rfl : entry = found := Option.some.inj (hentry.symm.trans hfound)
    rcases horigin with rfl | ⟨asked, -, hasked, -, -, hsame⟩
    · cases hreq
    · obtain rfl : asked = dep := Option.some.inj (hasked.symm.trans hreq)
      rw [hsame, hv] at hw
      exact hne (Option.some.inj hw).symm
  · intro hkept
    rcases horigin with rfl | ⟨dep, hdep, hreq, hdepName, hsome, hsame⟩
    · rfl
    · obtain ⟨w, hw⟩ := Option.isSome_iff_exists.1 hsome
      by_cases hwv : w = v
      · exact hw.trans (congrArg some hwv)
      · exact absurd ⟨entry, hentry, dep, hdep, hreq, hdepName.trans hname, w, hsame.trans hw, hwv⟩
          hkept

end BuildGraph.Elements
