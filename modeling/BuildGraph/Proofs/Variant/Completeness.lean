import BuildGraph.Proofs.Variant.Depth
import BuildGraph.Proofs.Variant.Tried
import Mathlib.Data.List.Basic

/-!
# When a search finds a choice

A search does not go back into a dependency that it has configured: what was left open below it keeps
the variant it got, whatever the later siblings of the dependency ask for. So a table can have a
consistent choice of variants that the search misses. It does find one if the choice also keeps to
what the search tries first wherever an element other than the target leaves a variant open
(`Elements.Tried`); among the dependencies of the target itself it finds any choice.
-/

namespace BuildGraph

namespace Attempt

/-- The first attempt that succeeds is good, if one of the candidates is sure to be good when it ends
and those before it are good unless they fail. -/
theorem first_good {attempt : Configuration → Attempt} {good : Pool → Prop}
    {before after : List Configuration} {c : Configuration} {last : VariantError}
    (hbefore : ∀ d ∈ before, ∀ pool, attempt d = some (.ok pool) → good pool)
    (hc : ∀ r, attempt c = some r → ∃ pool, r = .ok pool ∧ good pool)
    {r : Except VariantError Pool} (h : first attempt (before ++ c :: after) last = some r) :
    ∃ pool, r = .ok pool ∧ good pool := by
  induction before generalizing last with
  | nil =>
    rw [List.nil_append, first] at h
    cases ha : attempt c with
    | none => simp [ha] at h
    | some a =>
      obtain ⟨pool, rfl, hgood⟩ := hc a ha
      simp only [ha, Option.some.injEq] at h
      exact ⟨pool, h.symm, hgood⟩
  | cons d rest ih =>
    rw [List.cons_append, first] at h
    cases ha : attempt d with
    | none => simp [ha] at h
    | some a =>
      cases a with
      | ok pool =>
        simp only [ha, Option.some.injEq] at h
        exact ⟨pool, h.symm, hbefore d List.mem_cons_self pool ha⟩
      | error e =>
        simp only [ha] at h
        exact ih (fun d hd => hbefore d (List.mem_cons_of_mem _ hd)) h

end Attempt

namespace Elements

variable {elements : Elements} {choice : Choice} {target : String} {path : Way} {n : String}
  {v : Option String} {pool : Pool} {c : Configuration} {dep : Dependency} {e f : Element}

/-- Dependencies are discharged with success if one candidate of each is sure to be configured when its
search ends, and those before it leave a pool of the same kind or cannot spoil the result. -/
theorem discharge_good {configure : Configuration → Pool → Attempt} {kept good : Pool → Prop}
    {deps : List Dependency} (hgood : ∀ pool, kept pool → good pool)
    (hdeps : ∀ dep ∈ deps, ∀ pool, kept pool → ∃ before c after,
      elements.candidates dep = before ++ c :: after ∧
      (∀ r, configure c pool = some r → ∃ pool', r = .ok pool' ∧ kept pool') ∧
      ∀ d ∈ before, ∀ pool', configure d pool = some (.ok pool') → kept pool' ∨ ∀ p, good p)
    {pool : Pool} (hpool : kept pool) {r : Except VariantError Pool}
    (h : elements.discharge configure deps pool = some r) : ∃ pool', r = .ok pool' ∧ good pool' := by
  induction deps generalizing pool r with
  | nil =>
    cases h
    exact ⟨pool, rfl, hgood pool hpool⟩
  | cons dep rest ih =>
    obtain ⟨before, c, after, hsplit, hc, hbefore⟩ := hdeps dep List.mem_cons_self pool hpool
    have hrest : ∀ mid, kept mid → ∀ r, elements.discharge configure rest mid = some r →
        ∃ pool', r = .ok pool' ∧ good pool' := fun mid hmid r hr =>
      ih (fun d hd => hdeps d (List.mem_cons_of_mem _ hd)) hmid hr
    rw [discharge, hsplit] at h
    refine Attempt.first_good ?_ ?_ h
    · intro d hd pool' hok
      split at hok
      · next mid hmid =>
        rcases hbefore d hd mid hmid with hkept | hall
        · obtain ⟨found, hfound, hg⟩ := hrest mid hkept _ hok
          cases hfound
          exact hg
        · exact hall pool'
      · next hne => exact absurd hok (hne pool')
    · intro a ha
      cases hconf : configure c pool with
      | none => simp [hconf] at ha
      | some b =>
        obtain ⟨mid, rfl, hkept⟩ := hc b hconf
        simp only [hconf] at ha
        exact hrest mid hkept a ha

/-- What a search that follows a choice keeps on the way to an element: the pool holds nothing that is
not in play, the target in its variant, and what is undisputed on the way. -/
structure Kept (elements : Elements) (choice : Choice) (target : String) (path : Way)
    (pool : Pool) : Prop where
  listed : ∀ c ∈ pool.toList, elements.Listed c
  inPlay : ∀ c ∈ pool.toList, elements.InPlay choice target c.element c.variant
  target : ∃ entry, pool.find? target = some entry ∧ entry.variant = choice target
  path : ∀ m v, (m, v) ∈ path → elements.Undisputed m v →
    ∃ entry, pool.find? m = some entry ∧ entry.variant = v

/-- Whether among the variants that a dependency admits there is one that the search may try and that
goes with the pool, while those before it are given up or lead to pools of the same kind. -/
def Fitting (elements : Elements) (choice : Choice) (target : String) (path : Way) (pool : Pool)
    (dep : Dependency) (f : Element) : Prop :=
  ∃ before w after, admitted dep f = before ++ w :: after ∧
    elements.Tried choice target path dep.name w ∧ (w = choice dep.name ∨ dep.variant = none) ∧
    pool.conflict? (.of (some dep) f w) = none ∧
    ∀ u ∈ before, elements.Contradicts path f u ∨ u = choice dep.name ∨
      pool.conflict? (.of (some dep) f u) ≠ none

theorem Kept.of_cons {m : String} {u : Option String}
    (h : elements.Kept choice target ((m, u) :: path) pool) :
    elements.Kept choice target path pool :=
  ⟨h.listed, h.inPlay, h.target, fun n v hn => h.path n v (List.mem_cons_of_mem _ hn)⟩

/-- A pool that has the target in its variant settles everything that the search tries for it. -/
theorem Kept.ne_target (h : elements.Kept choice target path pool)
    (hc : c.variant = choice c.element ∨ c.isExplicit = false) (hs : pool.settles c = false) :
    c.element ≠ target := by
  intro hname
  obtain ⟨entry, hentry, hvariant⟩ := h.target
  obtain ⟨hother, hexplicit⟩ := Pool.ne_of_settles_eq_false hs (hname ▸ hentry)
  rcases hc with hchoice | hopen
  · exact hother (by rw [hvariant, hchoice, hname])
  · rw [hopen] at hexplicit
    cases hexplicit

theorem Kept.put (h : elements.Kept choice target path pool) (hdep : dep ∈ elements.declaredDeps)
    (hc : c ∈ elements.candidates dep)
    (htried : elements.Tried choice target path c.element c.variant) (hs : pool.settles c = false)
    (hne : c.element ≠ target) :
    elements.Kept choice target ((c.element, c.variant) :: path) (pool.put c) := by
  refine ⟨?_, ?_, ?_, ?_⟩
  · exact Roster.forall_mem_put (listed_candidate hc) h.listed
  · exact Roster.forall_mem_put ⟨path, htried⟩ h.inPlay
  · obtain ⟨entry, hentry, hvariant⟩ := h.target
    exact ⟨entry, (Roster.find?_put_of_ne hne).trans hentry, hvariant⟩
  · intro m v hm hu
    rcases List.mem_cons.1 hm with heq | hpath
    · cases heq
      exact ⟨c, Roster.find?_put_self rfl, rfl⟩
    · obtain ⟨entry, hentry, hv⟩ := h.path m v hpath hu
      exact ⟨entry, hu.put hdep hc hs hentry hv, hv⟩

/-- A configuration that contradicts the way comes out of the search only if it was settled. -/
theorem Contradicts.settled {w : Option String} (h : elements.Contradicts path f w)
    {pool pool' : Pool} (hkept : elements.Kept choice target path pool)
    (hdep : dep ∈ elements.declaredDeps) (hc : c ∈ elements.candidates dep)
    (hdeps : c.deps = f.depsFor w) (hconf : elements.Configures c pool pool') : pool' = pool := by
  cases hs : pool.settles c with
  | true => exact hconf.settled hs
  | false =>
    obtain ⟨m, v, e, hm, hu, he, own, hown, asked, hasked, hname, x, y, hx, hy, hne⟩ := h
    obtain ⟨entry, hentry, hv⟩ := hkept.path m v hm hu
    have hdepsOf : entry.deps = e.depsFor v := by
      obtain ⟨g, hg, hgdeps⟩ := hkept.listed entry (Named.mem_of_find? hentry)
      have hmname : entry.element = m := Named.name_of_find? hentry
      rw [hmname, he] at hg
      cases hg
      rw [hgdeps, hv]
    have hlisted : ∀ d ∈ (Roster.put pool c).toList, elements.Listed d :=
      Roster.forall_mem_put (listed_candidate hc) hkept.listed
    have hpending := hu.pending hname hx hy hne (hconf.run hs)
      (fun _ => (listed_candidate hc).mem_declaredDeps) hlisted
      (hu.put hdep hc hs hentry hv) hv (hdepsOf ▸ hown) (hdeps ▸ hasked)
    cases hpending

section

variable {variant : Option String}
  (consistent : elements.ConsistentChoice choice target variant (elements.InPlay choice target))

include consistent

/-- The request of an element in play is for the chosen variant. -/
theorem ConsistentChoice.asked (hkept : elements.Kept choice target path pool)
    {entry : Configuration} (he : entry ∈ pool.toList) (hdep : dep ∈ entry.deps) {x : String}
    (hx : dep.variant = some x) : choice dep.name = some x := by
  obtain ⟨e, hfind, hdeps⟩ := hkept.listed entry he
  exact consistent.requests _ _ e (hkept.inPlay entry he) hfind dep (hdeps ▸ hdep) x hx

/-- No element in play depends on itself. -/
theorem ConsistentChoice.owner_ne (owned : elements.Owned)
    (hkept : elements.Kept choice target path pool) {entry : Configuration}
    (he : entry ∈ pool.toList) (hdep : dep ∈ entry.deps) : dep.owner ≠ dep.name := by
  obtain ⟨e, hfind, hdeps⟩ := hkept.listed entry he
  rw [(hkept.listed entry he).owner owned hdep]
  exact fun h => consistent.others _ _ e (hkept.inPlay entry he) hfind dep (hdeps ▸ hdep) h.symm

/-- What goes with a pool that follows the choice: a configuration that every request for its element
is content with. -/
theorem ConsistentChoice.fits_iff (owned : elements.Owned)
    (hkept : elements.Kept choice target path pool) :
    pool.conflict? c = none ↔ ∀ entry ∈ pool.toList, ∀ dep ∈ entry.deps, dep.name = c.element →
      ∀ v, dep.variant = some v → c.variant = some v := by
  rw [Pool.conflict?_eq_none_iff]
  constructor
  · exact fun h entry he dep hdep hname => (h entry he dep hdep hname).2
  · intro h entry he dep hdep hname
    refine ⟨?_, h entry he dep hdep hname⟩
    exact hname ▸ consistent.owner_ne owned hkept he hdep

theorem ConsistentChoice.fits (owned : elements.Owned)
    (hkept : elements.Kept choice target path pool) (hc : c.variant = choice c.element) :
    pool.conflict? c = none := by
  refine (consistent.fits_iff owned hkept).2 fun entry he dep hdep hname v hv => ?_
  rw [hc, ← hname]
  exact consistent.asked hkept he hdep hv

/-- If one configuration of an element does not go with the pool, then none goes with it but the
chosen one. -/
theorem ConsistentChoice.eq_choice (owned : elements.Owned)
    (hkept : elements.Kept choice target path pool) {c d : Configuration}
    (hc : pool.conflict? c ≠ none) (hd : pool.conflict? d = none) (hsame : c.element = d.element) :
    d.variant = choice d.element := by
  by_contra hne
  refine hc ((consistent.fits_iff owned hkept).2 fun entry he dep hdep hname v hv => ?_)
  have hchoice := consistent.asked hkept he hdep hv
  have hasked := (consistent.fits_iff owned hkept).1 hd entry he dep hdep (hname.trans hsame) v hv
  exact absurd (hasked.trans ((hname.trans hsame) ▸ hchoice).symm) hne

/-- The chosen variant of a dependency contradicts nothing on the way. -/
theorem ConsistentChoice.not_contradicts (hn : elements.Tried choice target path n v)
    (he : elements.find? n = some e) (hdep : dep ∈ e.depsFor v)
    (hf : elements.find? dep.name = some f) :
    ¬elements.Contradicts ((n, v) :: path) f (choice dep.name) := by
  have hchosen : elements.Tried choice target ((n, v) :: path) dep.name (choice dep.name) :=
    .chosen hn he hdep
  rintro ⟨m, u, g, hm, -, hg, own, hown, asked, hasked, hname, x, y, hx, hy, hne⟩
  have hfirst := consistent.requests m u g (hchosen.inPlay_of_mem hm) hg own hown x hx
  have hsecond := consistent.requests dep.name _ f ⟨_, hchosen⟩ hf asked hasked y hy
  rw [hname, hsecond] at hfirst
  exact hne (Option.some.inj hfirst).symm

/-- The chosen variant of a dependency is among those that it admits. -/
theorem ConsistentChoice.mem_admitted (hn : elements.Tried choice target path n v)
    (he : elements.find? n = some e) (hdep : dep ∈ e.depsFor v)
    (hf : elements.find? dep.name = some f) : choice dep.name ∈ admitted dep f := by
  rw [admitted]
  cases hx : dep.variant with
  | some x =>
    rw [consistent.requests n v e ⟨path, hn⟩ he dep hdep x hx]
    exact List.mem_cons_self
  | none =>
    have hdecl := consistent.declared dep.name _ f ⟨_, .chosen hn he hdep⟩ hf
    cases hvs : f.variants with
    | nil =>
      rw [hdecl.eq_none_iff.2 hvs]
      exact List.mem_cons_self
    | cons first rest =>
      cases hchoice : choice dep.name with
      | none => simp [hdecl.eq_none_iff.1 hchoice] at hvs
      | some x =>
        rw [hchoice] at hdecl
        obtain ⟨w, hw, hname⟩ := List.mem_map.1 (Named.find?_isSome_iff.1 hdecl)
        exact List.mem_map.2 ⟨w, hvs ▸ hw, by rw [← hname]; rfl⟩

/-- The chosen variant of a dependency fits if no other one goes with the pool. -/
theorem ConsistentChoice.fitting_choice (owned : elements.Owned)
    (hn : elements.Tried choice target path n v) (he : elements.find? n = some e)
    (hdep : dep ∈ e.depsFor v) (hf : elements.find? dep.name = some f)
    (hkept : elements.Kept choice target ((n, v) :: path) pool)
    (hothers : ∀ u ∈ admitted dep f, u = choice dep.name ∨
      pool.conflict? (.of (some dep) f u) ≠ none) :
    elements.Fitting choice target ((n, v) :: path) pool dep f := by
  have hname : f.name = dep.name := Named.name_of_find? hf
  obtain ⟨before, after, hsplit⟩ := List.append_of_mem (consistent.mem_admitted hn he hdep hf)
  refine ⟨before, choice dep.name, after, hsplit, .chosen hn he hdep, .inl rfl, ?_, ?_⟩
  · refine consistent.fits owned hkept ?_
    rw [Configuration.of_variant, Configuration.of_element, hname]
  · exact fun u hu => .inr (hothers u (hsplit ▸ List.mem_append_left _ hu))

theorem ConsistentChoice.fitting (owned : elements.Owned)
    (hn : elements.Tried choice target path n v) (hne : n ≠ target) (he : elements.find? n = some e)
    (hdep : dep ∈ e.depsFor v) (hf : elements.find? dep.name = some f)
    (hkept : elements.Kept choice target ((n, v) :: path) pool) :
    elements.Fitting choice target ((n, v) :: path) pool dep f := by
  classical
  have hname : f.name = dep.name := Named.name_of_find? hf
  have hchoice := consistent.fitting_choice owned hn he hdep hf hkept
  cases hx : dep.variant with
  | some x =>
    -- a dependency that names a variant admits that one only, and the choice agrees
    refine hchoice fun u hu => .inl ?_
    rw [consistent.requests n v e ⟨path, hn⟩ he dep hdep x hx]
    simpa [admitted, hx] using hu
  | none =>
    have hexists : ((admitted dep f).find? fun u =>
        ¬elements.Contradicts ((n, v) :: path) f u).isSome := by
      refine List.find?_isSome.2 ⟨choice dep.name, consistent.mem_admitted hn he hdep hf, ?_⟩
      exact decide_eq_true (consistent.not_contradicts hn he hdep hf)
    obtain ⟨w, hw⟩ := Option.isSome_iff_exists.1 hexists
    obtain ⟨hfree, before, after, hsplit, hbefore⟩ := List.find?_eq_some_iff_append.1 hw
    have hfree : ¬elements.Contradicts ((n, v) :: path) f w := of_decide_eq_true hfree
    have hbefore : ∀ u ∈ before, elements.Contradicts ((n, v) :: path) f u := by
      intro u hu
      simpa using hbefore u hu
    cases hfit : pool.conflict? (.of (some dep) f w) with
    | none =>
      exact ⟨before, w, after, hsplit, .first hn hne he hdep hx hf hsplit hbefore hfree, .inr hx,
        hfit, fun u hu => .inl (hbefore u hu)⟩
    | some conflict =>
      -- what rejects this one rejects all but the chosen variant
      refine hchoice fun u hu => ?_
      by_cases hu : pool.conflict? (.of (some dep) f u) = none
      · have hvariant := consistent.eq_choice owned hkept (c := .of (some dep) f w)
          (by rw [hfit]; exact Option.some_ne_none _) hu rfl
        rw [Configuration.of_variant, Configuration.of_element, hname] at hvariant
        exact .inl hvariant
      · exact .inr hu

/-- One of the candidates of a dependency is sure to be configured if its search ends, and those before
it keep to the choice if they are configured. -/
theorem ConsistentChoice.exists_candidate (owned : elements.Owned)
    (hn : elements.Tried choice target path n v) (hne : n ≠ target) (he : elements.find? n = some e)
    (hdep : dep ∈ e.depsFor v) (hf : elements.find? dep.name = some f) {depth : Nat}
    (hconf : ∀ c pool r, c ∈ elements.candidates dep →
      elements.Tried choice target ((n, v) :: path) c.element c.variant →
      (c.variant = choice c.element ∨ c.isExplicit = false) → pool.conflict? c = none →
      elements.Kept choice target ((n, v) :: path) pool →
      elements.configure depth c pool = some r →
      ∃ pool', r = .ok pool' ∧ elements.Kept choice target ((n, v) :: path) pool')
    (hkept : elements.Kept choice target ((n, v) :: path) pool) :
    ∃ before c after, elements.candidates dep = before ++ c :: after ∧
      (∀ r, elements.configure depth c pool = some r →
        ∃ pool', r = .ok pool' ∧ elements.Kept choice target ((n, v) :: path) pool') ∧
      ∀ d ∈ before, ∀ pool', elements.configure depth d pool = some (.ok pool') →
        elements.Kept choice target ((n, v) :: path) pool' := by
  have hname : f.name = dep.name := Named.name_of_find? hf
  have hdecl : dep ∈ elements.declaredDeps := mem_declaredDeps he hdep
  obtain ⟨before, w, after, hsplit, htried, hopen, hfit, hbefore⟩ :=
    consistent.fitting owned hn hne he hdep hf hkept
  have hcand : ∀ u ∈ before ++ w :: after, .of (some dep) f u ∈ elements.candidates dep :=
    fun u hu => mem_candidates_iff.2 ⟨f, hf, u, hsplit ▸ hu, rfl⟩
  -- what the search does with a variant that it may try and that goes with the pool
  have htry : ∀ u ∈ before ++ w :: after,
      elements.Tried choice target ((n, v) :: path) dep.name u →
      (u = choice dep.name ∨ dep.variant = none) →
      pool.conflict? (.of (some dep) f u) = none → ∀ r,
      elements.configure depth (.of (some dep) f u) pool = some r →
      ∃ pool', r = .ok pool' ∧ elements.Kept choice target ((n, v) :: path) pool' := by
    intro u hu hutried huopen hufit r hr
    refine hconf _ pool r (hcand u hu) ?_ ?_ hufit hkept hr
    · rwa [Configuration.of_element, Configuration.of_variant, hname]
    · rw [Configuration.of_element, Configuration.of_variant, hname]
      exact huopen.imp id fun hx => by simp [isExplicit_candidate (hcand u hu), hx]
  refine ⟨before.map (.of (some dep) f), .of (some dep) f w, after.map (.of (some dep) f), ?_, ?_, ?_⟩
  · rw [candidates, hf]
    simp only [hsplit, List.map_append, List.map_cons]
  · exact htry w (by simp) htried hopen hfit
  · intro d hd pool' hok
    obtain ⟨u, hu, rfl⟩ := List.mem_map.1 hd
    have hmem : u ∈ before ++ w :: after := List.mem_append_left _ hu
    have hconfigures := configure_run hok
    rcases hbefore u hu with hcontradicts | hchosen | hconflict
    -- what contradicts the way can only have been settled before
    · rw [hcontradicts.settled hkept hdecl (hcand u hmem) rfl hconfigures]
      exact hkept
    · have hchosenTried := hchosen ▸ Tried.chosen hn he hdep
      obtain ⟨found, hfound, hgood⟩ :=
        htry u hmem hchosenTried (.inl hchosen) hconfigures.admitted _ hok
      cases hfound
      exact hgood
    · exact absurd hconfigures.admitted hconflict

/-- On the way from the target, whatever is configured keeps to the choice. -/
theorem ConsistentChoice.configure_kept (owned : elements.Owned) (closed : elements.Closed)
    {depth : Nat} {r : Except VariantError Pool} (hdep : dep ∈ elements.declaredDeps)
    (hc : c ∈ elements.candidates dep)
    (htried : elements.Tried choice target path c.element c.variant)
    (hopen : c.variant = choice c.element ∨ c.isExplicit = false) (hfit : pool.conflict? c = none)
    (hkept : elements.Kept choice target path pool) (h : elements.configure depth c pool = some r) :
    ∃ pool', r = .ok pool' ∧ elements.Kept choice target path pool' := by
  -- on the depth; one level further down the way is longer by the element that comes in
  induction depth generalizing path dep c pool r with
  | zero => cases h
  | succ depth ih =>
    cases hs : pool.settles c with
    | true =>
      rw [configure_settled hfit hs] at h
      cases h
      exact ⟨pool, rfl, hkept⟩
    | false =>
      rw [configure_put hfit hs] at h
      have hne := hkept.ne_target hopen hs
      obtain ⟨e, he, hdeps⟩ := listed_candidate hc
      obtain ⟨pool', hr, hkept'⟩ := discharge_good (fun _ hk => hk)
        (fun d hd pool hk => by
          have hdecl : d ∈ elements.declaredDeps := (listed_candidate hc).mem_declaredDeps hd
          obtain ⟨f, hf⟩ := Option.isSome_iff_exists.1 (closed d hdecl)
          obtain ⟨before, c', after, hsplit, hc', hbefore⟩ :=
            consistent.exists_candidate owned htried hne he (hdeps ▸ hd) hf
              (fun _ _ _ hmem ht ho hf hk h => ih hdecl hmem ht ho hf hk h) hk
          exact ⟨before, c', after, hsplit, hc', fun d hd p hp => .inl (hbefore d hd p hp)⟩)
        (hkept.put hdep hc htried hs hne) h
      exact ⟨pool', hr, hkept'.of_cons⟩

/-- Among the dependencies of the target every candidate may fail but the chosen one. -/
theorem ConsistentChoice.exists_candidate_target (owned : elements.Owned) (closed : elements.Closed)
    (known : elements.find? target = some e) (hdep : dep ∈ e.depsFor (choice target)) {depth : Nat}
    (hkept : elements.Kept choice target [(target, choice target)] pool) :
    ∃ before c after, elements.candidates dep = before ++ c :: after ∧
      ∀ r, elements.configure depth c pool = some r →
        ∃ pool', r = .ok pool' ∧ elements.Kept choice target [(target, choice target)] pool' := by
  have hdecl : dep ∈ elements.declaredDeps := mem_declaredDeps known hdep
  obtain ⟨f, hf⟩ := Option.isSome_iff_exists.1 (closed dep hdecl)
  have hname : f.name = dep.name := Named.name_of_find? hf
  have hc : .of (some dep) f (choice dep.name) ∈ elements.candidates dep :=
    mem_candidates_iff.2 ⟨f, hf, _, consistent.mem_admitted .target known hdep hf, rfl⟩
  have hchosen : (Configuration.of (some dep) f (choice dep.name)).variant =
      choice (Configuration.of (some dep) f (choice dep.name)).element := by
    rw [Configuration.of_variant, Configuration.of_element, hname]
  obtain ⟨before, after, hsplit⟩ := List.append_of_mem hc
  refine ⟨before, _, after, hsplit, fun r hr => ?_⟩
  refine consistent.configure_kept owned closed hdecl hc ?_ (.inl hchosen)
    (consistent.fits owned hkept hchosen) hkept hr
  rw [Configuration.of_element, Configuration.of_variant, hname]
  exact .chosen .target known hdep

theorem ConsistentChoice.start_kept (known : elements.find? target = some e) :
    elements.Kept choice target [(target, choice target)] (.put .empty (start e variant)) := by
  have hname : (start e variant).element = target := (Named.name_of_find? known : e.name = target)
  have hvariant : (start e variant).variant = choice target := (consistent.target e known).symm
  refine ⟨?_, ?_, ⟨start e variant, find?_start known variant, hvariant⟩, ?_⟩
  · exact fun c hc => mem_start hc ▸ listed_start known variant
  · intro c hc
    rw [mem_start hc, hname, hvariant]
    exact ⟨[], .target⟩
  · intro m v hm _
    obtain ⟨rfl, rfl⟩ : m = target ∧ v = choice target := by simpa using hm
    exact ⟨start e variant, find?_start known variant, hvariant⟩

/-- A search that ends finds a pool if a choice is consistent over all that is in play with it. -/
theorem ConsistentChoice.configure_start (owned : elements.Owned) (closed : elements.Closed)
    (known : elements.find? target = some e) {depth : Nat} {r : Except VariantError Pool}
    (h : elements.configure depth (start e variant) .empty = some r) : ∃ pool, r = .ok pool := by
  cases depth with
  | zero => cases h
  | succ depth =>
    have hdeps : (start e variant).deps = e.depsFor (choice target) := by
      rw [consistent.target e known]
      rfl
    rw [configure_put (conflict?_empty _) rfl, hdeps] at h
    -- a candidate for a dependency of the target that does not follow the choice may well succeed,
    -- but then the target is done
    have hany : ∀ pool, elements.Kept choice target [(target, choice target)] pool → True :=
      fun _ _ => trivial
    obtain ⟨pool, hr, -⟩ := discharge_good hany
      (fun dep hdep pool hk => by
        obtain ⟨before, c, after, hsplit, hc⟩ :=
          consistent.exists_candidate_target owned closed known hdep hk
        exact ⟨before, c, after, hsplit, hc, fun _ _ _ _ => .inr fun _ => trivial⟩)
      (consistent.start_kept known) h
    exact ⟨pool, hr⟩

end

/-- A target resolves, unless its search has no end, if there is a choice of variants that is
consistent over all that is in play with it. So no conflict is reported then. -/
theorem resolve_complete {variant : Option String} {e : Element} (owned : elements.Owned)
    (closed : elements.Closed) (known : elements.find? target = some e)
    (consistent : elements.ConsistentChoice choice target variant
      (elements.InPlay choice target)) :
    ((∃ pool, elements.resolve target variant = .ok pool) ∨
      ∀ depth, elements.configure depth (start e variant) .empty = none) ∧
    ∀ conflict, elements.resolve target variant ≠ .error (.variantConflict conflict) := by
  have hends : (∃ pool, elements.resolve target variant = .ok pool) ∨
      ∀ depth, elements.configure depth (start e variant) .empty = none := by
    by_cases h : ∀ depth, elements.configure depth (start e variant) .empty = none
    · exact .inr h
    · obtain ⟨depth, hdepth⟩ := not_forall.1 h
      obtain ⟨r, hr⟩ := Option.ne_none_iff_exists'.1 hdepth
      obtain ⟨pool, rfl⟩ := consistent.configure_start owned closed known hr
      exact .inl ⟨pool, resolve_of_configure known hr⟩
  refine ⟨hends, fun conflict hconflict => ?_⟩
  rcases hends with ⟨pool, hpool⟩ | hnone
  · rw [hpool] at hconflict
    cases hconflict
  · rw [(resolve_eq_endlessSearch_iff known).2 hnone] at hconflict
    cases hconflict

/-- The table of `forcedTable` below a target `t`. -/
def nestedTable : Elements := .ofList [
  .bare "t" [.between "t" "b" none] [],
  .bare "b" [.between "b" "a" none, .between "b" "c" (some "x")] [],
  .bare "a" [] [("y", [.between "a" "c" (some "y")]), ("x", [.between "a" "c" (some "x")])],
  .bare "c" [] [("x", []), ("y", [])]]

/-- The variant `x` for the elements `a` and `c`. -/
def choiceX : Choice := fun n => if n = "a" ∨ n = "c" then some "x" else none

/-- Nobody asks for `b` by name, so its request for `c` stands while `a` is configured. -/
theorem nestedTable_contradicts {path : Way} {f : Element}
    (hf : nestedTable.find? "a" = some f) :
    nestedTable.Contradicts (("b", none) :: path) f (some "y") := by
  have hopen : ∀ dep ∈ nestedTable.declaredDeps, dep.name = "b" → dep.variant = none := by decide
  have hundisputed : nestedTable.Undisputed "b" none := by
    intro dep hdep hname x hx
    rw [hopen dep hdep hname] at hx
    cases hx
  cases hf
  exact ⟨"b", none, _, List.mem_cons_self, hundisputed, rfl, .between "b" "c" (some "x"), by decide,
    .between "a" "c" (some "y"), by decide, rfl, "x", "y", rfl, rfl, by decide⟩

/-- The search passes over the first variant of `a`, and tries the chosen variants only. -/
theorem nestedTable_tried {path : Way} {n : String} {v : Option String}
    (h : nestedTable.Tried choiceX "t" path n v) : v = choiceX n := by
  induction h with
  | target => rfl
  | chosen => rfl
  | @first path n v w e f dep before after hn hne he hdep hx hf hsplit hbefore hfree ih =>
    have hrows : ∀ e ∈ nestedTable.toList, ∀ dep ∈ e.depsFor (choiceX e.name), dep.variant = none →
        ∀ f ∈ nestedTable.toList, f.name = dep.name → admitted dep f = [choiceX dep.name] ∨
          e.name = "b" ∧ dep.name = "a" ∧ admitted dep f = [some "y", some "x"] := by decide
    have hname : e.name = n := Named.name_of_find? he
    have hw : w ∈ admitted dep f := hsplit ▸ List.mem_append_right _ List.mem_cons_self
    rw [ih, ← hname] at hdep
    rcases hrows e (Named.mem_of_find? he) dep hdep hx f (Named.mem_of_find? hf)
      (Named.name_of_find? hf) with hsingle | ⟨hb, ha, hboth⟩
    · rw [hsingle] at hw
      exact List.mem_singleton.1 hw
    · rw [hboth] at hw
      have hchoice : choiceX dep.name = some "x" := by
        rw [ha]
        decide
      rcases List.mem_cons.1 hw with rfl | hx
      · have hn : (n, v) = ("b", none) := by
          rw [ih, ← hname, hb]
          decide
        rw [hn] at hfree
        exact absurd (nestedTable_contradicts (ha ▸ hf)) hfree
      · rw [hchoice]
        exact List.mem_singleton.1 hx

theorem nestedTable_complete : (∃ pool, nestedTable.resolve "t" none = .ok pool) ∧
    ∀ conflict, nestedTable.resolve "t" none ≠ .error (.variantConflict conflict) := by
  have howned : nestedTable.Owned := by
    unfold Owned
    decide
  have hclosed : nestedTable.Closed := by
    unfold Closed
    decide
  have hconsistent :
      nestedTable.ConsistentChoice choiceX "t" none (nestedTable.InPlay choiceX "t") :=
    consistentChoice_of_table (fun _ _ h => nestedTable_tried h.choose_spec) (by decide) (by decide)
  obtain ⟨hends, hconflict⟩ := resolve_complete howned hclosed rfl hconsistent
  refine ⟨hends.resolve_right fun hnone => ?_, hconflict⟩
  cases hnone 8

/-- `m` comes before `n`, so the search settles `a` in its first variant before it learns that `n`
asks for `c` in the variant `x`, and does not go back into `m`. -/
def deepTable : Elements := .ofList [
  .bare "t" [.between "t" "m" none, .between "t" "n" none] [],
  .bare "m" [.between "m" "a" none] [],
  .bare "n" [.between "n" "c" (some "x")] [],
  .bare "a" [] [("y", [.between "a" "c" (some "y")]), ("x", [.between "a" "c" (some "x")])],
  .bare "c" [] [("x", []), ("y", [])]]

/-- A choice that is consistent over the elements reached by it does not keep a search from ending in
a conflict. -/
theorem deepTable_incomplete : ¬∀ (elements : Elements) (choice : Choice) (target : String)
    (variant : Option String) (e : Element), elements.Owned → elements.Closed →
    elements.find? target = some e → elements.checkRequests target variant = .ok () →
    elements.ConsistentChoice choice target variant (elements.Chosen choice target) →
    ∀ conflict, elements.resolve target variant ≠ .error (.variantConflict conflict) := by
  intro h
  have howned : deepTable.Owned := by
    unfold Owned
    decide
  have hclosed : deepTable.Closed := by
    unfold Closed
    decide
  have hconsistent : deepTable.ConsistentChoice choiceX "t" none (deepTable.Chosen choiceX "t") :=
    consistentChoice_of_table (fun _ _ => Chosen.eq_choice) (by decide) (by decide)
  exact h deepTable choiceX "t" none _ howned hclosed rfl rfl hconsistent
    (.disagreement "c" "a" "y" (some "x") (.fileStart "a")) rfl

end Elements

end BuildGraph
