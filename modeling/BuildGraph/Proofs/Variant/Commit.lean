import BuildGraph.Proofs.Outcome
import BuildGraph.Variant.Choice

/-!
# Committed variants

A commit changes the elements that have a configuration, each according to its own, and no others.
-/

namespace BuildGraph

/-- A layer fits on a document if its composition comes to the end. -/
theorem Layer.onto_eq_ok_iff {layer : Layer} {place : Provenance} {data document result : Node} :
    layer.onto place data document = .ok result ↔
      document.composite data layer.policy layer.isTypesafe = ⟨result, none⟩ := by
  rw [onto, mapError_eq_ok_iff, Composed.outcome_eq_ok_iff]

namespace Configuration

variable {c : Configuration} {e chosen : Element}

theorem commitTo_eq_ok_iff : c.commitTo e = .ok chosen ↔
    ∃ data, e.dataIn c.variant = .ok data ∧
      chosen = { e with data, variant := c.variant, deps := c.deps } := by
  rw [commitTo]
  simp only [bind_eq_ok_iff, pure_eq_ok_iff]
  constructor
  · rintro ⟨data, hdata, rfl⟩
    exact ⟨data, hdata, rfl⟩
  · rintro ⟨data, hdata, rfl⟩
    exact ⟨data, hdata, rfl⟩

theorem commitTo_eq_error_iff {err : LoadError} :
    c.commitTo e = .error err ↔ e.dataIn c.variant = .error err := by
  rw [commitTo, bind_eq_error_iff]
  constructor
  · rintro (hdata | ⟨_, -, hpure⟩)
    · exact hdata
    · cases hpure
  · exact .inl

theorem name_of_commitTo (h : c.commitTo e = .ok chosen) : chosen.name = e.name := by
  obtain ⟨data, -, rfl⟩ := commitTo_eq_ok_iff.1 h
  rfl

/-- A configuration with the dependencies that its element has in its variant is committed as the
variant is. -/
theorem commitTo_eq_choose (hdeps : c.deps = e.depsFor c.variant) :
    c.commitTo e = e.choose c.variant := by
  rw [Element.choose, commitTo, commitTo, hdeps]
  rfl

end Configuration

namespace Element

variable {e chosen : Element} {variant : Option String}

/-- What a commit does to an element: its data and dependencies are those of the variant. -/
theorem choose_eq_ok_iff : e.choose variant = .ok chosen ↔
    ∃ data, e.dataIn variant = .ok data ∧
      chosen = { e with data, variant, deps := e.depsFor variant } :=
  Configuration.commitTo_eq_ok_iff

theorem choose_eq_error_iff {err : LoadError} :
    e.choose variant = .error err ↔ e.dataIn variant = .error err :=
  Configuration.commitTo_eq_error_iff

theorem name_of_choose (h : e.choose variant = .ok chosen) : chosen.name = e.name :=
  Configuration.name_of_commitTo h

theorem variant_of_choose (h : e.choose variant = .ok chosen) : chosen.variant = variant := by
  obtain ⟨data, -, rfl⟩ := choose_eq_ok_iff.1 h
  rfl

end Element

namespace Elements

variable {elements elements' : Elements}

theorem commit_cons {c : Configuration} {rest : List Configuration} {e : Element}
    (he : elements.find? c.element = some e)
    (h : elements.commit (c :: rest) = .ok elements') :
    ∃ chosen, c.commitTo e = .ok chosen ∧
      Elements.commit (elements.put chosen) rest = .ok elements' := by
  simpa only [commit, he, bind_eq_ok_iff] using h

/-- An element without a configuration is left alone. -/
theorem commit_find?_of_not_mem {cs : List Configuration} {n : String}
    (hn : n ∉ Named.names cs) (h : elements.commit cs = .ok elements') :
    elements'.find? n = elements.find? n := by
  induction cs generalizing elements with
  | nil =>
    cases h
    rfl
  | cons c rest ih =>
    have hne : c.element ≠ n := fun heq => hn (List.mem_cons.2 (.inl heq.symm))
    have hrest : n ∉ Named.names rest := fun hm => hn (List.mem_cons_of_mem _ hm)
    cases he : elements.find? c.element with
    | none =>
      simp only [commit, he] at h
      exact ih hrest h
    | some e =>
      obtain ⟨chosen, hchosen, hcommit⟩ := commit_cons he h
      have hname : chosen.name = c.element :=
        (Configuration.name_of_commitTo hchosen).trans (Named.name_of_find? he)
      rw [ih hrest hcommit]
      exact Roster.find?_put_of_ne fun heq => hne (hname.symm.trans heq)

/-- An element with a configuration gets the variant of it. -/
theorem commit_find? {cs : List Configuration} (hcs : (Named.names cs).Nodup) {c : Configuration}
    (hc : c ∈ cs) {e : Element} (he : elements.find? c.element = some e)
    (h : elements.commit cs = .ok elements') :
    ∃ chosen, c.commitTo e = .ok chosen ∧ elements'.find? c.element = some chosen := by
  induction cs generalizing elements with
  | nil => cases hc
  | cons d rest ih =>
    obtain ⟨hnew, hrest⟩ := List.nodup_cons.1 hcs
    rcases List.mem_cons.1 hc with rfl | hc
    -- committed first; no later configuration is of the same element
    · obtain ⟨chosen, hchosen, hcommit⟩ := commit_cons he h
      have hname : chosen.name = c.element :=
        (Configuration.name_of_commitTo hchosen).trans (Named.name_of_find? he)
      refine ⟨chosen, hchosen, ?_⟩
      rw [commit_find?_of_not_mem (n := c.element) hnew hcommit]
      exact Roster.find?_put_self hname
    · have hne : d.element ≠ c.element := fun heq =>
        hnew (List.mem_map.2 ⟨c, hc, heq.symm⟩)
      cases hd : elements.find? d.element with
      | none =>
        simp only [commit, hd] at h
        exact ih hrest hc he h
      | some f =>
        obtain ⟨other, hother, hcommit⟩ := commit_cons hd h
        have hname : other.name = d.element :=
          (Configuration.name_of_commitTo hother).trans (Named.name_of_find? hd)
        have hkept : Roster.find? (elements.put other) c.element = some e :=
          (Roster.find?_put_of_ne fun heq => hne (hname.symm.trans heq)).trans he
        exact ih hrest hc hkept hcommit

/-- A commit brings in no names and loses none. -/
theorem isSome_commit_iff {cs : List Configuration} (h : elements.commit cs = .ok elements')
    {n : String} : (elements'.find? n).isSome ↔ (elements.find? n).isSome := by
  induction cs generalizing elements with
  | nil => rw [Except.ok.inj h]
  | cons c rest ih =>
    cases he : elements.find? c.element with
    | none =>
      simp only [commit, he] at h
      exact ih h
    | some e =>
      obtain ⟨chosen, hchosen, hcommit⟩ := commit_cons he h
      have hname : Named.name chosen = c.element :=
        (Configuration.name_of_commitTo hchosen).trans (Named.name_of_find? he)
      rw [ih hcommit, Roster.find?_put, hname]
      split
      · next hsame => simp [← hsame, he]
      · rfl

end Elements

end BuildGraph
