import BuildGraph.Graph.Cycle
import BuildGraph.Proofs.Graph.Reach
import BuildGraph.Proofs.Outcome
import Mathlib.Data.List.Chain

/-!
# Cycles are detected exactly

A visit that succeeds leaves no name behind from which a cycle is reached; this goes without a look at
the path, since a cycle through the name on top of the path would be reached from what it leads to.
A visit that fails does so at a name on the path, and the path is a chain of dependencies
(`Elements.Trail`), so that its end closes a cycle.
-/

namespace BuildGraph.Elements

variable {elements : Elements} {path : List String} {sound : List String}

/-- A chain of resolved dependencies that runs from a name back to it and meets no name twice on the
way; `place` is where the last of the dependencies is declared. -/
structure IsCycle (elements : Elements) (name : String) (chain : List String)
    (place : Option Provenance) : Prop where
  linked : chain.IsChain elements.LeadsTo
  closed : ∃ between, chain = name :: between ++ [name] ∧ (name :: between).Nodup ∧
    ∃ last ∈ (name :: between).getLast?, ∃ dep ∈ elements.depsOf last, dep.name = name ∧
      place = some dep.place

/-- A path of a walk from the starts, with the arrivals at what its end leads to. -/
structure Trail (elements : Elements) (starts path : List String) (arrivals : List Arrival) :
    Prop where
  nodup : path.Nodup
  linked : path.IsChain elements.LeadsTo
  ahead : ∀ arrival ∈ arrivals, ∀ last ∈ path.getLast?, ∃ dep ∈ elements.depsOf last,
    dep.name = arrival.name ∧ arrival.place = some dep.place
  reached : ∀ arrival ∈ arrivals, ∃ start ∈ starts, elements.Reaches start arrival.name

theorem Trail.rest {starts : List String} {arrival : Arrival} {rest : List Arrival}
    (h : elements.Trail starts path (arrival :: rest)) : elements.Trail starts path rest :=
  ⟨h.nodup, h.linked, fun a ha => h.ahead a (List.mem_cons_of_mem _ ha),
    fun a ha => h.reached a (List.mem_cons_of_mem _ ha)⟩

/-- A trail goes on to a new name. -/
theorem Trail.descend {starts : List String} {arrival : Arrival} {rest : List Arrival} {e : Element}
    (h : elements.Trail starts path (arrival :: rest)) (hnew : arrival.name ∉ path)
    (he : elements.find? arrival.name = some e) :
    elements.Trail starts (path ++ [arrival.name]) (Elements.arrivals e) := by
  have hdeps : elements.depsOf arrival.name = e.deps := depsOf_eq he
  refine ⟨?_, ?_, ?_, ?_⟩
  · exact (List.perm_append_singleton _ _).nodup_iff.2 (List.nodup_cons.2 ⟨hnew, h.nodup⟩)
  · refine h.linked.append (by simp) ?_
    intro last hlast b hb
    obtain rfl : arrival.name = b := by simpa using hb
    obtain ⟨dep, hdep, hname, -⟩ := h.ahead arrival List.mem_cons_self last hlast
    exact leadsTo_iff.2 ⟨dep, hdep, hname⟩
  · intro next hnext last hlast
    obtain rfl : arrival.name = last := by simpa using hlast
    obtain ⟨dep, hdep, rfl⟩ := List.mem_map.1 hnext
    exact ⟨dep, hdeps ▸ hdep, rfl, rfl⟩
  · intro next hnext
    obtain ⟨dep, hdep, rfl⟩ := List.mem_map.1 hnext
    obtain ⟨start, hstart, hreach⟩ := h.reached arrival List.mem_cons_self
    exact ⟨start, hstart, hreach.tail (leadsTo_iff.2 ⟨dep, hdeps ▸ hdep, rfl⟩)⟩

/-- A trail that comes back to a name on it closes a cycle. -/
theorem Trail.isCycle {starts : List String} {arrival : Arrival} {rest : List Arrival}
    (h : elements.Trail starts path (arrival :: rest)) (hmem : arrival.name ∈ path) :
    elements.IsCycle arrival.name (chain path arrival.name) arrival.place := by
  -- what comes before the name on the trail leads to the cycle and is not on it
  obtain ⟨before, after, rfl, hbefore⟩ := List.eq_append_cons_of_mem hmem
  have hchain : chain (before ++ arrival.name :: after) arrival.name =
      arrival.name :: after ++ [arrival.name] := by
    have hskip : ∀ m ∈ before, (m != arrival.name) = true := by
      intro m hm
      have hne : m ≠ arrival.name := fun heq => hbefore (heq ▸ hm)
      simpa using hne
    rw [chain, List.dropWhile_append_of_pos hskip, List.dropWhile_cons_of_neg (by simp)]
  have hlast : (before ++ arrival.name :: after).getLast? = (arrival.name :: after).getLast? := by
    rw [List.getLast?_append_of_ne_nil _ (List.cons_ne_nil _ _)]
  have hahead := h.ahead arrival List.mem_cons_self
  rw [hlast] at hahead
  obtain ⟨last, hend⟩ : ∃ last, last ∈ (arrival.name :: after).getLast? :=
    ⟨_, List.getLast?_eq_getLast_of_ne_nil (List.cons_ne_nil _ _)⟩
  obtain ⟨dep, hdep, hname, hplace⟩ := hahead last hend
  refine ⟨?_, after, hchain, (List.nodup_append.1 h.nodup).2.1, last, hend, dep, hdep, hname, hplace⟩
  rw [hchain]
  refine h.linked.right_of_append.append (by simp) ?_
  intro m hm n hn
  obtain rfl : arrival.name = n := by simpa using hn
  obtain ⟨dep, hdep, hname, -⟩ := hahead m hm
  exact leadsTo_iff.2 ⟨dep, hdep, hname⟩

theorem visit_of_find? {arrival : Arrival} {rest : List Arrival} {e : Element}
    (hsound : ¬sound.contains arrival.name = true) (hpath : ¬path.contains arrival.name = true)
    (he : elements.find? arrival.name = some e) :
    elements.visit path (arrival :: rest) sound =
      (elements.visit (path ++ [arrival.name]) (Elements.arrivals e) sound >>= fun sound =>
        elements.visit path rest (sound ++ [arrival.name])) := by
  rw [visit, if_neg hsound, if_neg hpath]
  split
  · next hnone =>
    rw [he] at hnone
    cases hnone
  · next found hfound =>
    obtain rfl : e = found := Option.some.inj (he.symm.trans hfound)
    rfl

theorem visit_of_find?_eq_none {arrival : Arrival} {rest : List Arrival}
    (hsound : ¬sound.contains arrival.name = true) (hpath : ¬path.contains arrival.name = true)
    (he : elements.find? arrival.name = none) :
    elements.visit path (arrival :: rest) sound = elements.visit path rest sound := by
  rw [visit, if_neg hsound, if_neg hpath]
  split
  · rfl
  · next found hfound =>
    rw [he] at hfound
    cases hfound

/-- No cycle is reached from what is visited with success. -/
theorem visit_clear {arrivals : List Arrival} (hsound : ∀ n ∈ sound, elements.Clear n)
    {sound' : List String} (h : elements.visit path arrivals sound = .ok sound') :
    (∀ n ∈ sound', elements.Clear n) ∧ ∀ arrival ∈ arrivals, elements.Clear arrival.name := by
  induction path, arrivals, sound using visit.induct elements generalizing sound' with
  | case1 path sound =>
    rw [visit] at h
    cases h
    exact ⟨hsound, fun _ hnil => (List.not_mem_nil hnil).elim⟩
  | case2 path sound arrival rest hknown ih =>
    rw [visit, if_pos hknown] at h
    obtain ⟨hclear, hrest⟩ := ih hsound h
    exact ⟨hclear, List.forall_mem_cons.2 ⟨hsound _ (by simpa using hknown), hrest⟩⟩
  | case3 path sound arrival rest hnew hback =>
    rw [visit, if_neg hnew, if_pos hback] at h
    cases h
  | case4 path sound arrival rest hnew hpath hnone ih =>
    rw [visit_of_find?_eq_none hnew hpath hnone] at h
    obtain ⟨hclear, hrest⟩ := ih hsound h
    have hunknown : arrival.name ∉ elements.names := by
      simpa [← Roster.find?_isSome_iff] using hnone
    exact ⟨hclear, List.forall_mem_cons.2 ⟨clear_of_not_mem hunknown, hrest⟩⟩
  | case5 path sound arrival rest hnew hpath e he ihDown ihRest =>
    rw [visit_of_find? hnew hpath he, bind_eq_ok_iff] at h
    obtain ⟨mid, hdown, h⟩ := h
    -- the name joins those known to be clear only after all that it leads to
    obtain ⟨hmid, hdeps⟩ := ihDown hsound hdown
    have hname : elements.Clear arrival.name := by
      refine clear_of_next fun m hm => ?_
      obtain ⟨dep, hdep, rfl⟩ := leadsTo_iff.1 hm
      rw [depsOf_eq he] at hdep
      exact hdeps _ (List.mem_map_of_mem hdep)
    have hmid' : ∀ n ∈ mid ++ [arrival.name], elements.Clear n := by
      intro n hn
      rcases List.mem_append.1 hn with hold | hlast
      · exact hmid n hold
      · exact List.mem_singleton.1 hlast ▸ hname
    obtain ⟨hclear, hrest⟩ := ihRest mid hmid' h
    exact ⟨hclear, List.forall_mem_cons.2 ⟨hname, hrest⟩⟩

/-- A visit that fails has found a cycle. -/
theorem visit_isCycle {starts : List String} {arrivals : List Arrival}
    (htrail : elements.Trail starts path arrivals) {err : LoadError}
    (h : elements.visit path arrivals sound = .error err) :
    ∃ name chain place, err = .circularDependency name chain place ∧
      elements.IsCycle name chain place ∧ ∃ start ∈ starts, elements.Reaches start name := by
  induction path, arrivals, sound using visit.induct elements with
  | case1 path sound =>
    rw [visit] at h
    cases h
  | case2 path sound arrival rest hknown ih =>
    rw [visit, if_pos hknown] at h
    exact ih htrail.rest h
  | case3 path sound arrival rest hnew hback =>
    rw [visit, if_neg hnew, if_pos hback] at h
    cases h
    exact ⟨_, _, _, rfl, htrail.isCycle (by simpa using hback),
      htrail.reached arrival List.mem_cons_self⟩
  | case4 path sound arrival rest hnew hpath hnone ih =>
    rw [visit_of_find?_eq_none hnew hpath hnone] at h
    exact ih htrail.rest h
  | case5 path sound arrival rest hnew hpath e he ihDown ihRest =>
    rw [visit_of_find? hnew hpath he] at h
    cases hdown : elements.visit (path ++ [arrival.name]) (Elements.arrivals e) sound with
    | error err' =>
      rw [hdown] at h
      cases h
      exact ihDown (htrail.descend (by simpa using hpath) he) hdown
    | ok mid =>
      rw [hdown] at h
      exact ihRest mid htrail.rest h

/-- A cycle runs from its name back to it by one or more dependencies. -/
theorem IsCycle.follows {name : String} {chain : List String} {place : Option Provenance}
    (h : elements.IsCycle name chain place) : elements.Follows name name := by
  obtain ⟨between, rfl, -, last, hlast, dep, hdep, hname, -⟩ := h.closed
  have hlinked : (name :: between).IsChain elements.LeadsTo := h.linked.left_of_append
  have hreach : elements.Reaches name last := by
    obtain ⟨hne, rfl⟩ := List.mem_getLast?_eq_getLast hlast
    exact List.relationReflTransGen_of_exists_isChain_cons between hlinked rfl
  exact Relation.TransGen.tail' hreach (leadsTo_iff.2 ⟨dep, hdep, hname⟩)

/-- A check that passes has found no cycle from any of the starts. -/
theorem clear_of_checkCircular {starts : List String} (h : elements.checkCircular starts = .ok ()) :
    ∀ start ∈ starts, elements.Clear start := by
  rw [checkCircular, bind_eq_ok_iff] at h
  obtain ⟨sound, hvisit, -⟩ := h
  have hall := (visit_clear (fun _ hnil => (List.not_mem_nil hnil).elim) hvisit).2
  exact fun start hstart => hall ⟨start, none⟩ (List.mem_map_of_mem hstart)

/-- The check passes exactly if nothing that is reached from the starts is on a cycle. If it fails, it
shows a cycle that is reached. -/
theorem checkCircular_exact (elements : Elements) (starts : List String) :
    (elements.checkCircular starts = .ok () ↔
      ∀ start ∈ starts, ∀ n, elements.Reaches start n → ¬elements.Follows n n) ∧
    ∀ err, elements.checkCircular starts = .error err →
      ∃ name chain place, err = .circularDependency name chain place ∧
        elements.IsCycle name chain place ∧ ∃ start ∈ starts, elements.Reaches start name := by
  have hfail : ∀ err, elements.checkCircular starts = .error err →
      ∃ name chain place, err = .circularDependency name chain place ∧
        elements.IsCycle name chain place ∧ ∃ start ∈ starts, elements.Reaches start name := by
    intro err h
    have htrail : elements.Trail starts [] (starts.map (⟨·, none⟩)) := by
      refine ⟨List.nodup_nil, .nil, fun _ _ _ hnil => (Option.not_mem_none _ hnil).elim, ?_⟩
      intro arrival harrival
      obtain ⟨start, hstart, rfl⟩ := List.mem_map.1 harrival
      exact ⟨start, hstart, .refl⟩
    cases hvisit : elements.visit [] (starts.map (⟨·, none⟩)) [] with
    | ok sound =>
      rw [checkCircular, hvisit] at h
      cases h
    | error err' =>
      rw [checkCircular, hvisit] at h
      cases h
      exact visit_isCycle htrail hvisit
  refine ⟨⟨clear_of_checkCircular, fun hclear => ?_⟩, hfail⟩
  cases hresult : elements.checkCircular starts with
  | ok => rfl
  | error err =>
    obtain ⟨name, chain, place, -, hcycle, start, hstart, hreach⟩ := hfail err hresult
    exact absurd hcycle.follows (hclear start hstart name hreach)

end BuildGraph.Elements
