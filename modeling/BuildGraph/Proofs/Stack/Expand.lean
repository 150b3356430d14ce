import BuildGraph.Proofs.Element.Declaration
import BuildGraph.Proofs.Graph.Walk
import BuildGraph.Proofs.Variant.Commit
import BuildGraph.Stack

/-!
# Expanded stacks

An expansion changes its stack and brings in new names; every other element stays as it was. As a walk
lists no name twice, every stack that is reached is expanded once.
-/

namespace BuildGraph

variable {archs : Architectures}

namespace Stack

variable {elements : Elements} {stack : Element} {siblings : List String}

/-- The element of an embed has a name that was free. -/
theorem elementOf_fresh {made : List Element} {embed : Embed} {e : Element}
    (h : elementOf archs elements stack siblings made embed = .ok e) :
    e.name = Embed.fullName stack embed.name ∧ elements.find? e.name = none := by
  simp only [elementOf, bind_eq_ok_iff, map_eq_ok_iff] at h
  obtain ⟨_, hfree, read, hread, _, -, _, -, chosen, hchosen, rfl⟩ := h
  have hname : (inherit stack chosen).name = Embed.fullName stack embed.name := calc
    chosen.name = (qualifyAll stack read).name := Element.name_of_choose hchosen
    _ = read.name := rfl
    _ = Embed.fullName stack embed.name := Element.ofDocument_name hread
  refine ⟨hname, ?_⟩
  rw [hname]
  simp only [checkName] at hfree
  split at hfree
  · cases hfree
  · next hnone => exact hnone

/-- The elements that embeds become have names that were free. -/
theorem elementsOf_fresh {embeds : List Embed} {before made : List Element}
    (h : elementsOf archs elements stack siblings embeds before = .ok made)
    (hbefore : ∀ e ∈ before, elements.find? e.name = none) :
    ∀ e ∈ made, elements.find? e.name = none := by
  induction embeds generalizing before with
  | nil =>
    cases h
    exact hbefore
  | cons embed rest ih =>
    simp only [elementsOf, bind_eq_ok_iff] at h
    obtain ⟨new, hnew, hrest⟩ := h
    refine ih hrest fun e he => ?_
    rcases List.mem_append.1 he with hold | hlast
    · exact hbefore e hold
    · obtain rfl : e = new := List.mem_singleton.1 hlast
      exact (elementOf_fresh hnew).2

end Stack

namespace Elements

variable {elements elements' : Elements}

theorem find?_foldl_put {es : List Element} {n : String} (hn : n ∉ Named.names es) :
    (es.foldl Roster.put elements).find? n = elements.find? n := by
  induction es generalizing elements with
  | nil => rfl
  | cons e rest ih =>
    have hne : e.name ≠ n := fun heq => hn (List.mem_cons.2 (.inl heq.symm))
    rw [List.foldl_cons, ih fun hm => hn (List.mem_cons_of_mem _ hm)]
    exact Roster.find?_put_of_ne hne

/-- What an expansion makes of its stack. -/
theorem expandStack_find? {stack : Element} {made : List String} {name : String}
    (hstack : elements.find? name = some stack)
    (h : elements.expandStack archs name = .ok (elements', made)) :
    ∃ embeds, Embed.readAll stack.data = .ok embeds ∧
      elements'.find? name = some (Stack.withEmbeds stack embeds) := by
  simp only [expandStack, hstack, bind_eq_ok_iff, pure_eq_ok_iff, Prod.mk.injEq] at h
  obtain ⟨embeds, hembeds, new, -, rfl, -⟩ := h
  have hname : stack.name = name := Named.name_of_find? hstack
  exact ⟨embeds, hembeds, Roster.find?_put_self hname⟩

/-- An expansion changes no other element. -/
theorem expandStack_find?_of_ne {made : List String} {name n : String} {e : Element}
    (hne : n ≠ name) (he : elements.find? n = some e)
    (h : elements.expandStack archs name = .ok (elements', made)) :
    elements'.find? n = some e := by
  cases hstack : elements.find? name with
  | none =>
    simp only [expandStack, hstack, Except.ok.injEq, Prod.mk.injEq] at h
    exact h.1 ▸ he
  | some stack =>
    simp only [expandStack, hstack, bind_eq_ok_iff, pure_eq_ok_iff, Prod.mk.injEq] at h
    obtain ⟨embeds, -, new, hnew, rfl, -⟩ := h
    have hfresh : n ∉ Named.names new := by
      intro hn
      obtain ⟨d, hd, hname⟩ := List.mem_map.1 hn
      have hfree : elements.find? (Named.name d) = none :=
        Stack.elementsOf_fresh hnew (fun _ hnil => (List.not_mem_nil hnil).elim) d hd
      rw [hname, he] at hfree
      cases hfree
    have hname : stack.name = name := Named.name_of_find? hstack
    rw [Roster.find?_put_of_ne fun heq => hne (heq.symm.trans hname), find?_foldl_put hfresh]
    exact he

/-- Expansions leave an element alone that is none of their stacks. -/
theorem expandAll_find?_of_not_mem {names : List String} {n : String} {e : Element}
    (hn : n ∉ names) (he : elements.find? n = some e)
    (h : elements.expandAll archs names = .ok elements') : elements'.find? n = some e := by
  induction names generalizing elements with
  | nil =>
    cases h
    exact he
  | cons name rest ih =>
    simp only [expandAll, bind_eq_ok_iff] at h
    obtain ⟨⟨mid, made⟩, hstep, _, -, hrest⟩ := h
    have hne : n ≠ name := fun heq => hn (List.mem_cons.2 (.inl heq))
    exact ih (fun hm => hn (List.mem_cons_of_mem _ hm)) (expandStack_find?_of_ne hne he hstep) hrest

/-- Each of the stacks is expanded once. -/
theorem expandAll_find? {names : List String} (hnames : names.Nodup) {n : String} {e : Element}
    (hn : n ∈ names) (he : elements.find? n = some e)
    (h : elements.expandAll archs names = .ok elements') :
    ∃ embeds, Embed.readAll e.data = .ok embeds ∧
      elements'.find? n = some (Stack.withEmbeds e embeds) := by
  induction names generalizing elements with
  | nil => cases hn
  | cons name rest ih =>
    obtain ⟨hnew, hrestNodup⟩ := List.nodup_cons.1 hnames
    simp only [expandAll, bind_eq_ok_iff] at h
    obtain ⟨⟨mid, made⟩, hstep, _, -, hrest⟩ := h
    rcases List.mem_cons.1 hn with rfl | hlater
    -- expanded first, and left alone by the expansions after it
    · obtain ⟨embeds, hembeds, hfound⟩ := expandStack_find? he hstep
      exact ⟨embeds, hembeds, expandAll_find?_of_not_mem hnew hfound hrest⟩
    · have hne : n ≠ name := fun heq => hnew (heq ▸ hlater)
      exact ih hrestNodup hlater (expandStack_find?_of_ne hne he hstep) hrest

/-- What becomes of an element when every stack that is reached is expanded. -/
theorem expandStacks_find? {target n : String} {e : Element} (he : elements.find? n = some e)
    (h : elements.expandStacks archs target = .ok elements') :
    (n ∈ elements.reachable target ∧ e.isStack = true →
      ∃ embeds, Embed.readAll e.data = .ok embeds ∧
        elements'.find? n = some (Stack.withEmbeds e embeds)) ∧
    (¬(n ∈ elements.reachable target ∧ e.isStack = true) → elements'.find? n = some e) := by
  have hmem : n ∈ (elements.reachable target).filter elements.isStack ↔
      n ∈ elements.reachable target ∧ e.isStack = true := by
    rw [List.mem_filter, isStack, he]
    exact Iff.rfl
  constructor
  · exact fun hstack => expandAll_find? ((nodup_reachable target).filter _) (hmem.2 hstack) he h
  · exact fun hother => expandAll_find?_of_not_mem (fun hn => hother (hmem.1 hn)) he h

end Elements

end BuildGraph
