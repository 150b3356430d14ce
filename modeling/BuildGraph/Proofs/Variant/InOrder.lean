import BuildGraph.Proofs.Variant.Known
import BuildGraph.Proofs.Variant.Termination

/-!
# Searches that follow the order of declaration

A search tries variants in the order they are declared. Where every request by name is for the
variant that comes first anyway, the pool of the search never leaves the choice of the first variants
(`Elements.Obeys`). The only candidates that are rejected on the way are other variants of the target,
if it was asked for in a later one; so no level is tried twice, and each one adds an element.
-/

namespace BuildGraph

namespace Attempt

/-- Candidates that fail are passed over. -/
theorem first_append_of_errors {attempt : Configuration → Attempt}
    {before after : List Configuration} {c : Configuration} {last : VariantError} {pool : Pool}
    (hbefore : ∀ d ∈ before, ∃ e, attempt d = some (.error e)) (hc : attempt c = some (.ok pool)) :
    first attempt (before ++ c :: after) last = some (.ok pool) := by
  induction before generalizing last with
  | nil => rw [List.nil_append, first, hc]
  | cons d rest ih =>
    obtain ⟨⟨e, he⟩, hrest⟩ := List.forall_mem_cons.1 hbefore
    rw [List.cons_append, first, he]
    exact ih hrest

end Attempt

namespace Elements

variable {elements : Elements} {choice : Choice} {target n : String} {variant v : Option String}
  {pool : Pool} {c : Configuration} {dep : Dependency} {e f : Element}

/-- The choice that follows the order of declaration: the target has the variant it is asked for in,
or else the first one it declares, and every other element has the first one it declares. -/
def inOrder (elements : Elements) (target : String) (variant : Option String) : Choice :=
  fun n => (elements.find? n).bind fun e => targetVariant e (if n = target then variant else none)

/-- Whether nothing forces a search out of a choice, over the elements reached by it. -/
structure Unforced (elements : Elements) (choice : Choice) (target : String) : Prop where
  /-- No element depends on itself: no dependency is for its owner. -/
  others : ∀ n v e, elements.Chosen choice target n v → elements.find? n = some e →
    ∀ dep ∈ e.depsFor v, dep.owner ≠ dep.name
  /-- Every request by name is for the chosen variant. -/
  requests : ∀ n v e, elements.Chosen choice target n v → elements.find? n = some e →
    ∀ dep ∈ e.depsFor v, ∀ x, dep.variant = some x → choice dep.name = some x
  /-- No dependency asks for the target in a variant that it does not declare; the check of requests
  lets none through that does. -/
  declared : ∀ n v e, elements.Chosen choice target n v → elements.find? n = some e →
    ∀ dep ∈ e.depsFor v, dep.name = target → ∀ x, dep.variant = some x →
      ∀ f, elements.find? target = some f → (f.variant? x).isSome

/-- Whether a pool holds the target and nothing but elements that are reached by a choice, each in the
chosen variant. -/
structure Obeys (elements : Elements) (choice : Choice) (target : String) (pool : Pool) : Prop where
  listed : ∀ c ∈ pool.toList, elements.Listed c
  chosen : ∀ c ∈ pool.toList, elements.Chosen choice target c.element c.variant
  target : (pool.find? target).isSome

theorem inOrder_target (known : elements.find? target = some e) :
    elements.inOrder target variant target = targetVariant e variant := by
  rw [inOrder, known, Option.bind_some, if_pos rfl]

theorem inOrder_of_ne (known : elements.find? n = some e) (hn : n ≠ target) :
    elements.inOrder target variant n = targetVariant e none := by
  rw [inOrder, known, Option.bind_some, if_neg hn]

/-- Without a request by name the first variant that is declared is tried first. -/
theorem admitted_eq_cons (hdep : dep.variant = none) :
    ∃ later, admitted dep f = targetVariant f none :: later := by
  rw [admitted, hdep]
  cases hvs : f.variants with
  | nil => exact ⟨[], by simp [targetVariant, hvs]⟩
  | cons w rest => exact ⟨rest.map fun v => some v.name, by simp [targetVariant, hvs]⟩

namespace Obeys

theorem variant_eq (h : elements.Obeys choice target pool) {entry : Configuration}
    (hentry : pool.find? n = some entry) : entry.variant = choice n := by
  have hname : entry.element = n := Named.name_of_find? hentry
  rw [← hname]
  exact (h.chosen entry (Named.mem_of_find? hentry)).eq_choice

theorem put (h : elements.Obeys choice target pool) (hc : elements.Listed c)
    (hchosen : elements.Chosen choice target c.element c.variant) :
    elements.Obeys choice target (pool.put c) :=
  ⟨Roster.forall_mem_put hc h.listed, Roster.forall_mem_put hchosen h.chosen,
    Roster.find?_put_isSome c h.target⟩

/-- The chosen variant of an element comes into the pool only if the element is new. -/
theorem find?_eq_none (h : elements.Obeys choice target pool) (hc : c.variant = choice c.element)
    (hs : pool.settles c = false) : pool.find? c.element = none := by
  cases hentry : pool.find? c.element with
  | none => rfl
  | some entry =>
    have hsame : entry.variant = c.variant := (h.variant_eq hentry).trans hc.symm
    exact absurd hsame (Pool.ne_of_settles_eq_false hs hentry).1

end Obeys

/-- Dependencies are discharged with success if of each one candidate is configured, and those before
it are rejected. -/
theorem discharge_of_candidates {configure : Configuration → Pool → Attempt} {kept : Pool → Prop}
    {deps : List Dependency}
    (hdeps : ∀ dep ∈ deps, ∀ pool, kept pool → ∃ before c after,
      elements.candidates dep = before ++ c :: after ∧
      (∀ d ∈ before, ∃ e, configure d pool = some (.error e)) ∧
      ∃ pool', configure c pool = some (.ok pool') ∧ kept pool')
    (hpool : kept pool) :
    ∃ pool', elements.discharge configure deps pool = some (.ok pool') ∧ kept pool' := by
  induction deps generalizing pool with
  | nil => exact ⟨pool, rfl, hpool⟩
  | cons dep rest ih =>
    obtain ⟨hdep, hrest⟩ := List.forall_mem_cons.1 hdeps
    obtain ⟨before, c, after, hsplit, hbefore, mid, hmid, hkept⟩ := hdep pool hpool
    obtain ⟨pool', hpool', hkept'⟩ := ih hrest hkept
    refine ⟨pool', ?_, hkept'⟩
    rw [discharge, hsplit]
    refine Attempt.first_append_of_errors (fun d hd => ?_) ?_
    · obtain ⟨e, he⟩ := hbefore d hd
      exact ⟨e, by simp only [he]⟩
    · simp only [hmid, hpool']

/-- In a table whose requests were checked, no dependency asks for a variant that is not declared. -/
theorem Unforced.of_checkRequests (valid : elements.checkRequests target variant = .ok ())
    (others : ∀ n v e, elements.Chosen choice target n v → elements.find? n = some e →
      ∀ dep ∈ e.depsFor v, dep.owner ≠ dep.name)
    (requests : ∀ n v e, elements.Chosen choice target n v → elements.find? n = some e →
      ∀ dep ∈ e.depsFor v, ∀ x, dep.variant = some x → choice dep.name = some x) :
    elements.Unforced choice target := by
  refine ⟨others, requests, fun n v e _ he dep hdep hname x hx f hf => ?_⟩
  have hdeclared := (checkRequests_eq_ok_iff.1 valid).2
  exact hdeclared dep (mem_declaredDeps he hdep) x f hx (hname ▸ hf)

section

variable (unforced : elements.Unforced choice target)

include unforced

/-- What the entries of a pool that obeys ask for is what is chosen. -/
theorem Unforced.asked (hpool : elements.Obeys choice target pool) {entry : Configuration}
    (he : entry ∈ pool.toList) (hdep : dep ∈ entry.deps) {x : String} (hx : dep.variant = some x) :
    choice dep.name = some x ∧ (dep.name = target →
      ∀ f, elements.find? target = some f → (f.variant? x).isSome) := by
  obtain ⟨e, hfind, hdeps⟩ := hpool.listed entry he
  have hin := hpool.chosen entry he
  exact ⟨unforced.requests _ _ e hin hfind dep (hdeps ▸ hdep) x hx,
    fun hname => unforced.declared _ _ e hin hfind dep (hdeps ▸ hdep) hname x hx⟩

/-- A configuration is rejected only by a request for its element in another variant. -/
theorem Unforced.conflict?_eq_none_iff (hpool : elements.Obeys choice target pool) :
    pool.conflict? c = none ↔ ∀ entry ∈ pool.toList, ∀ dep ∈ entry.deps, dep.name = c.element →
      ∀ x, dep.variant = some x → c.variant = some x := by
  rw [Pool.conflict?_eq_none_iff]
  refine ⟨fun h entry he dep hdep hname => (h entry he dep hdep hname).2,
    fun h entry he dep hdep hname => ⟨?_, h entry he dep hdep hname⟩⟩
  obtain ⟨e, hfind, hdeps⟩ := hpool.listed entry he
  rw [← hname]
  exact unforced.others _ _ e (hpool.chosen entry he) hfind dep (hdeps ▸ hdep)

/-- The chosen variant of an element goes with every pool that obeys. -/
theorem Unforced.fits (hpool : elements.Obeys choice target pool)
    (hc : c.variant = choice c.element) : pool.conflict? c = none := by
  refine (unforced.conflict?_eq_none_iff hpool).2 fun entry he dep hdep hname x hx => ?_
  rw [hc, ← hname]
  exact (unforced.asked hpool he hdep hx).1

end

section

variable (unforced : elements.Unforced (elements.inOrder target variant) target)

include unforced

/-- Some variant of the target goes with a pool that obeys, for whoever depends on the target. -/
theorem Unforced.exists_fitting (hpool : elements.Obeys (elements.inOrder target variant) target pool)
    (known : elements.find? dep.name = some f) (hname : dep.name = target)
    (hdep : dep.variant = none) : ∃ c ∈ elements.candidates dep, pool.conflict? c = none := by
  obtain ⟨later, hfirst⟩ := admitted_eq_cons (f := f) hdep
  have hcand : ∀ u ∈ admitted dep f, .of (some dep) f u ∈ elements.candidates dep :=
    fun u hu => mem_candidates_iff.2 ⟨f, known, u, hu, rfl⟩
  have hfname : f.name = dep.name := Named.name_of_find? known
  by_contra hnone
  -- the first variant is rejected by a request for the chosen one, which is declared then
  refine hnone ⟨_, hcand _ (hfirst ▸ List.mem_cons_self),
    (unforced.conflict?_eq_none_iff hpool).2 fun entry he asked hasked hto x hx => ?_⟩
  have hto : asked.name = target := hto.trans (hfname.trans hname)
  obtain ⟨hchoice, hdeclares⟩ := unforced.asked hpool he hasked hx
  obtain ⟨w, hw, rfl⟩ :=
    List.mem_map.1 (Named.find?_isSome_iff.1 (hdeclares hto f (hname ▸ known)))
  have hmem : some (Named.name w) ∈ admitted dep f := by
    rw [admitted, hdep, if_neg (by simpa using List.ne_nil_of_mem hw)]
    exact List.mem_map_of_mem (f := fun v : Variant => some v.name) hw
  refine absurd ⟨_, hcand _ hmem, unforced.fits hpool ?_⟩ hnone
  rw [Configuration.of_variant, Configuration.of_element, hfname, hname]
  exact (hto ▸ hchoice).symm

variable (closed : elements.Closed)

include closed

/-- The first candidate of a dependency that is not rejected has the chosen variant, or it is settled,
as the target is in the pool. -/
theorem Unforced.exists_candidate (hn : elements.Chosen (elements.inOrder target variant) target n v)
    (he : elements.find? n = some e) (hdep : dep ∈ e.depsFor v)
    (hpool : elements.Obeys (elements.inOrder target variant) target pool) :
    ∃ before c after, elements.candidates dep = before ++ c :: after ∧
      (∀ d ∈ before, pool.conflict? d ≠ none) ∧
      (c.variant = elements.inOrder target variant c.element ∨
        pool.conflict? c = none ∧ pool.settles c = true) := by
  obtain ⟨f, hf⟩ := Option.isSome_iff_exists.1 (closed dep (mem_declaredDeps he hdep))
  have hname : f.name = dep.name := Named.name_of_find? hf
  have hcand : elements.candidates dep = (admitted dep f).map (.of (some dep) f) := by
    rw [candidates, hf]
  cases hx : dep.variant with
  | some x =>
    refine ⟨[], .of (some dep) f (some x), [], by rw [hcand, admitted, hx]; rfl,
      fun d hd => absurd hd List.not_mem_nil, .inl ?_⟩
    rw [Configuration.of_variant, Configuration.of_element, hname]
    exact (unforced.requests n v e hn he dep hdep x hx).symm
  | none =>
    by_cases htarget : dep.name = target
    · obtain ⟨c, hc, hfit⟩ := unforced.exists_fitting hpool hf htarget hx
      have hsome : ((elements.candidates dep).find? fun c => (pool.conflict? c).isNone).isSome :=
        List.find?_isSome.2 ⟨c, hc, Option.isNone_iff_eq_none.2 hfit⟩
      obtain ⟨c, hfound⟩ := Option.isSome_iff_exists.1 hsome
      obtain ⟨hfit, before, after, hsplit, hbefore⟩ := List.find?_eq_some_iff_append.1 hfound
      refine ⟨before, c, after, hsplit, fun d hd hnone => ?_,
        .inr ⟨Option.isNone_iff_eq_none.1 hfit, ?_⟩⟩
      · have hrejected := hbefore d hd
        simp [hnone] at hrejected
      · -- nothing displaces the target but a request by name
        have hmem : c ∈ elements.candidates dep := hsplit ▸ List.mem_append_right _ List.mem_cons_self
        obtain ⟨entry, hentry⟩ := Option.isSome_iff_exists.1 hpool.target
        refine Pool.settles_iff.2 ⟨entry, ?_, .inr ?_⟩
        · rw [(candidate_spec hmem).2.1, htarget, hentry]
        · rw [isExplicit_candidate hmem, hx]
          rfl
    · obtain ⟨later, hfirst⟩ := admitted_eq_cons (f := f) hx
      refine ⟨[], .of (some dep) f (targetVariant f none), later.map (.of (some dep) f), ?_,
        fun d hd => absurd hd List.not_mem_nil, .inl ?_⟩
      · rw [hcand, hfirst]
        rfl
      · rw [Configuration.of_variant, Configuration.of_element, hname, inOrder_of_ne hf htarget]

/-- Of the candidates of a dependency one is configured if the search configures what is chosen, and
those before it are rejected. -/
theorem Unforced.exists_configured {depth : Nat} {kept : Pool → Prop}
    (hn : elements.Chosen (elements.inOrder target variant) target n v)
    (he : elements.find? n = some e) (hdep : dep ∈ e.depsFor v)
    (hpool : elements.Obeys (elements.inOrder target variant) target pool) (hkept : kept pool)
    (hconf : ∀ c, elements.Listed c →
      elements.Chosen (elements.inOrder target variant) target c.element c.variant →
      ∃ pool', elements.configure (depth + 1) c pool = some (.ok pool') ∧ kept pool') :
    ∃ before c after, elements.candidates dep = before ++ c :: after ∧
      (∀ d ∈ before, ∃ err, elements.configure (depth + 1) d pool = some (.error err)) ∧
      ∃ pool', elements.configure (depth + 1) c pool = some (.ok pool') ∧ kept pool' := by
  obtain ⟨before, c, after, hsplit, hbefore, hc⟩ :=
    unforced.exists_candidate closed hn he hdep hpool
  refine ⟨before, c, after, hsplit, fun d hd => ?_, ?_⟩
  · obtain ⟨err, herr⟩ := Option.ne_none_iff_exists'.1 (hbefore d hd)
    exact ⟨err, configure_conflict herr⟩
  · rcases hc with hchoice | ⟨hfit, hs⟩
    · have hmem : c ∈ elements.candidates dep := hsplit ▸ List.mem_append_right _ List.mem_cons_self
      refine hconf c (listed_candidate hmem) ?_
      rw [hchoice, (candidate_spec hmem).2.1]
      exact .step hn he hdep
    · exact ⟨pool, configure_settled hfit hs, hkept⟩

/-- The dependencies of what is chosen are discharged within as many levels as elements are missing in
the pool, and one more. -/
theorem Unforced.discharge_obeys {depth : Nat}
    (hn : elements.Chosen (elements.inOrder target variant) target n v)
    (he : elements.find? n = some e)
    (hpool : elements.Obeys (elements.inOrder target variant) target pool)
    (hdepth : (elements.missing pool).card < depth) :
    ∃ pool', elements.discharge (elements.configure depth) (e.depsFor v) pool = some (.ok pool') ∧
      elements.Obeys (elements.inOrder target variant) target pool' ∧
      ∀ m, (pool.find? m).isSome → (pool'.find? m).isSome := by
  induction depth generalizing n v e pool with
  | zero => omega
  | succ depth ih =>
    let kept (pool' : Pool) : Prop :=
      elements.Obeys (elements.inOrder target variant) target pool' ∧
        ∀ m, (pool.find? m).isSome → (pool'.find? m).isSome
    have hkept : kept pool := ⟨hpool, fun _ hm => hm⟩
    refine discharge_of_candidates (fun dep hdep mid hmid => ?_) hkept
    refine unforced.exists_configured closed hn he hdep hmid.1 hmid fun c hc hchosen => ?_
    have hvariant := hchosen.eq_choice
    have hfit := unforced.fits hmid.1 hvariant
    cases hs : mid.settles c with
    | true => exact ⟨mid, configure_settled hfit hs, hmid⟩
    | false =>
      -- what comes in was missing, so one level less is enough for its own dependencies
      have hfewer : (elements.missing (mid.put c)).card < depth := by
        have hnew := missing_put_ssubset hc (hmid.1.find?_eq_none hvariant hs)
        have hput := Finset.card_lt_card hnew
        have hmissing : (elements.missing mid).card ≤ (elements.missing pool).card :=
          Finset.card_le_card (missing_subset hmid.2)
        omega
      have hput := hmid.1.put hc hchosen
      obtain ⟨f, hf, hdeps⟩ := hc
      obtain ⟨pool', hpool', hobeys, hgrows⟩ := ih hchosen hf hput hfewer
      refine ⟨pool', ?_, hobeys, fun m hm => hgrows m (Roster.find?_put_isSome c (hmid.2 m hm))⟩
      rw [configure_put hfit hs, hdeps, hpool']

theorem Unforced.resolve_obeys (known : elements.find? target = some e) :
    ∃ pool, elements.resolve target variant = .ok pool ∧
      elements.Obeys (elements.inOrder target variant) target pool := by
  have hstart := listed_start known variant
  have hname : (start e variant).element = target := Named.name_of_find? known
  have hvariant : (start e variant).variant = elements.inOrder target variant target :=
    (inOrder_target known).symm
  have hpool : elements.Obeys (elements.inOrder target variant) target
      (.put .empty (start e variant)) := by
    refine ⟨fun c hc => mem_start hc ▸ hstart, fun c hc => ?_, ?_⟩
    · rw [mem_start hc, hname, hvariant]
      exact .target
    · rw [find?_start known variant]
      rfl
  obtain ⟨pool, hdischarge, hobeys, -⟩ :=
    unforced.discharge_obeys closed .target known hpool (Nat.lt_succ_self _)
  refine ⟨pool, ?_, hobeys⟩
  rw [← hvariant] at hdischarge
  rw [resolve_of_configure known ((configure_put (conflict?_empty _) rfl).trans hdischarge)]
  rfl

end

/-- If nothing forces a search out of the order of declaration, it ends, and its pool consists of the
elements that are reached by the choice that follows this order, each in the chosen variant. -/
theorem resolve_inOrder (closed : elements.Closed)
    (unforced : elements.Unforced (elements.inOrder target variant) target) :
    ∃ pool, elements.resolve target variant = .ok pool ∧
      ∀ n v, (∃ c ∈ pool.toList, c.element = n ∧ c.variant = v) ↔
        (elements.find? n).isSome ∧
          elements.Chosen (elements.inOrder target variant) target n v := by
  cases known : elements.find? target with
  | none =>
    refine ⟨.empty, by rw [resolve, known], fun n v => ?_⟩
    -- from what is not in the table nothing is reached
    have hall : ∀ n v, elements.Chosen (elements.inOrder target variant) target n v →
        elements.find? n = none := by
      intro n v hn
      induction hn with
      | target => exact known
      | step _ he _ ih => cases ih.symm.trans he
    simp only [Roster.toList_empty, List.not_mem_nil, false_and, exists_false, false_iff]
    rintro ⟨hsome, hn⟩
    rw [hall n v hn] at hsome
    cases hsome
  | some e =>
    obtain ⟨pool, hresolve, hobeys⟩ := unforced.resolve_obeys closed known
    refine ⟨pool, hresolve, fun n v => ⟨?_, ?_⟩⟩
    · rintro ⟨c, hc, rfl, rfl⟩
      obtain ⟨f, hf, -⟩ := hobeys.listed c hc
      exact ⟨Option.isSome_iff_exists.2 ⟨f, hf⟩, hobeys.chosen c hc⟩
    · rintro ⟨-, hn⟩
      have hin : (pool.find? n).isSome := by
        induction hn with
        | target => exact hobeys.target
        | @step m v e dep hm he hdep ih =>
          -- the entry of what depends on it asks for it
          obtain ⟨entry, hentry⟩ := Option.isSome_iff_exists.1 ih
          have hmem := Named.mem_of_find? hentry
          obtain ⟨f, hf, hdeps⟩ := hobeys.listed entry hmem
          have hname : entry.element = m := Named.name_of_find? hentry
          rw [hname, he] at hf
          cases hf
          rw [hobeys.variant_eq hentry, ← hm.eq_choice] at hdeps
          obtain ⟨-, found, hfound, -⟩ := resolve_meets known hresolve entry hmem dep (hdeps ▸ hdep)
          exact Option.isSome_iff_exists.2 ⟨found, hfound⟩
      obtain ⟨c, hc⟩ := Option.isSome_iff_exists.1 hin
      exact ⟨c, Named.mem_of_find? hc, Named.name_of_find? hc,
        (hobeys.variant_eq hc).trans hn.eq_choice.symm⟩

/-- The target `t` is asked for in its second variant. Its first one is tried again for `b`, and
rejected, as `a` asks for the second one by name. -/
def laterTable : Elements := .ofList [
  .bare "t" [] [("x", []), ("y", [.between "t" "a" none])],
  .bare "a" [.between "a" "t" (some "y"), .between "a" "b" none] [],
  .bare "b" [.between "b" "t" none, .between "b" "c" none] [],
  .bare "c" [] [("p", [.between "c" "a" none]), ("q", [])]]

theorem laterTable_inOrder : ∃ pool, laterTable.resolve "t" (some "y") = .ok pool ∧
    ∀ n v, (∃ c ∈ pool.toList, c.element = n ∧ c.variant = v) ↔
      (laterTable.find? n).isSome ∧
        laterTable.Chosen (laterTable.inOrder "t" (some "y")) "t" n v := by
  have hclosed : laterTable.Closed := by
    unfold Closed
    decide
  have hvalid : laterTable.checkRequests "t" (some "y") = .ok () := by decide
  have htable : ∀ e ∈ laterTable.toList,
      ∀ dep ∈ e.depsFor (laterTable.inOrder "t" (some "y") e.name), dep.owner ≠ dep.name ∧
        (dep.variant = none ∨ dep.variant = laterTable.inOrder "t" (some "y") dep.name) := by
    decide
  have hat : ∀ n v e, laterTable.Chosen (laterTable.inOrder "t" (some "y")) "t" n v →
      laterTable.find? n = some e → ∀ dep ∈ e.depsFor v, dep.owner ≠ dep.name ∧
        (dep.variant = none ∨ dep.variant = laterTable.inOrder "t" (some "y") dep.name) := by
    intro n v e hn he
    have hname : e.name = n := Named.name_of_find? he
    rw [hn.eq_choice, ← hname]
    exact htable e (Named.mem_of_find? he)
  refine resolve_inOrder hclosed (Unforced.of_checkRequests hvalid
    (fun n v e hn he dep hdep => (hat n v e hn he dep hdep).1)
    fun n v e hn he dep hdep x hx => ?_)
  rcases (hat n v e hn he dep hdep).2 with hnone | hsame
  · rw [hnone] at hx
    cases hx
  · rw [← hsame, hx]

end Elements

end BuildGraph
