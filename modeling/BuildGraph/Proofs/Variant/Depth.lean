import BuildGraph.Proofs.Variant.Consistency
import Mathlib.Data.Finset.Powerset
import Mathlib.Data.Finset.Prod
import Mathlib.Data.Fintype.Card

/-!
# The depth of a search

More depth never changes what a search came to, and `Elements.searchDepth` is enough for every search
that ends at any depth: a search that needs all of a depth meets as many different points as the depth
is large, and the table has no more of them. So `Elements.resolve` is the search without a bound.
-/

namespace BuildGraph

namespace Attempt

theorem first_mono {f g : Configuration → Attempt} {cs : List Configuration} {last : VariantError}
    (hfg : ∀ c ∈ cs, ∀ r, f c = some r → g c = some r) {r : Except VariantError Pool}
    (h : first f cs last = some r) : first g cs last = some r := by
  induction cs generalizing last with
  | nil => exact h
  | cons c rest ih =>
    rw [first] at h ⊢
    cases hc : f c with
    | none => simp [hc] at h
    | some a =>
      rw [hfg c List.mem_cons_self a hc]
      cases a with
      | ok pool => simpa [hc] using h
      | error e =>
        simp only [hc] at h
        exact ih (fun d hd => hfg d (List.mem_cons_of_mem _ hd)) h

end Attempt

/-- An element and a variant of it: what a configuration is, whoever asked for it. -/
def Configuration.shape (c : Configuration) : String × Option String :=
  (c.element, c.variant)

namespace Elements

variable {elements : Elements}

/-- A way to configure that answers wherever another one does gives the same answers to lists of
dependencies, if this is so for the pools that come up on the way. -/
theorem discharge_mono {f g : Configuration → Pool → Attempt} {p : Pool → Prop}
    {deps : List Dependency}
    (hkeep : ∀ dep ∈ deps, ∀ c ∈ elements.candidates dep, ∀ pool pool', p pool →
      f c pool = some (.ok pool') → p pool')
    (hfg : ∀ dep ∈ deps, ∀ c ∈ elements.candidates dep, ∀ pool, p pool → ∀ r,
      f c pool = some r → g c pool = some r)
    {pool : Pool} (hpool : p pool) {r : Except VariantError Pool}
    (h : elements.discharge f deps pool = some r) : elements.discharge g deps pool = some r := by
  induction deps generalizing pool r with
  | nil => exact h
  | cons dep rest ih =>
    have hrest : ∀ pool, p pool → ∀ r, elements.discharge f rest pool = some r →
        elements.discharge g rest pool = some r := fun pool hpool r =>
      ih (fun d hd => hkeep d (List.mem_cons_of_mem _ hd))
        (fun d hd => hfg d (List.mem_cons_of_mem _ hd)) hpool
    refine Attempt.first_mono ?_ h
    intro c hc r hr
    cases hf : f c pool with
    | none => simp [hf] at hr
    | some a =>
      rw [hfg dep List.mem_cons_self c hc pool hpool a hf]
      cases a with
      | error e => simpa [hf] using hr
      | ok mid =>
        simp only [hf] at hr
        exact hrest mid (hkeep dep List.mem_cons_self c hc pool mid hpool hf) r hr

/-- More depth does not change what a search came to. -/
theorem configure_mono {d d' : Nat} (hle : d ≤ d') {c : Configuration} {pool : Pool}
    {r : Except VariantError Pool} (h : elements.configure d c pool = some r) :
    elements.configure d' c pool = some r := by
  induction d generalizing d' c pool r with
  | zero => simp [configure] at h
  | succ d ih =>
    obtain ⟨d', rfl⟩ := Nat.exists_eq_succ_of_ne_zero (by omega : d' ≠ 0)
    cases hn : pool.conflict? c with
    | some e =>
      rw [configure_conflict hn] at h ⊢
      exact h
    | none =>
      cases hs : pool.settles c with
      | true =>
        rw [configure_settled hn hs] at h ⊢
        exact h
      | false =>
        rw [configure_put hn hs] at h ⊢
        exact discharge_mono (p := fun _ => True) (fun _ _ _ _ _ _ _ _ => trivial)
          (fun _ _ _ _ _ _ _ hr => ih (by omega) hr) trivial h

theorem Listed.deps_eq {c c' : Configuration} (h : elements.Listed c) (h' : elements.Listed c')
    (hs : c.shape = c'.shape) : c.deps = c'.deps := by
  obtain ⟨e, he, hdeps⟩ := h
  obtain ⟨e', he', hdeps'⟩ := h'
  obtain ⟨hname, hvariant⟩ := Prod.mk.inj hs
  have heq : e = e' := by
    rw [hname, he'] at he
    exact (Option.some.inj he).symm
  rw [hdeps, hdeps', heq, hvariant]

/-- Pools that hold the same elements in the same variants. -/
structure Alike (elements : Elements) (P Q : Pool) : Prop where
  left : ∀ c ∈ P.toList, elements.Listed c
  right : ∀ c ∈ Q.toList, elements.Listed c
  same : ∀ n, (P.find? n).map Configuration.shape = (Q.find? n).map Configuration.shape

/-- Attempts that both do not end, both fail, or both succeed with pools that are alike. -/
inductive AlikeAttempts (elements : Elements) : Attempt → Attempt → Prop
  | none : AlikeAttempts elements none none
  | error (e e' : VariantError) : AlikeAttempts elements (some (.error e)) (some (.error e'))
  | ok {P Q : Pool} : elements.Alike P Q → AlikeAttempts elements (some (.ok P)) (some (.ok Q))

namespace Alike

variable {P Q : Pool} {c c' : Configuration}

theorem symm (h : elements.Alike P Q) : elements.Alike Q P :=
  ⟨h.right, h.left, fun n => (h.same n).symm⟩

theorem find? (h : elements.Alike P Q) {n : String} (hc : P.find? n = some c) :
    ∃ c', Q.find? n = some c' ∧ c'.shape = c.shape := by
  have hsame := h.same n
  rw [hc] at hsame
  exact Option.map_eq_some_iff.1 hsame.symm

theorem conflict?_eq_none (h : elements.Alike P Q) (hs : c.shape = c'.shape)
    (hn : P.conflict? c = none) : Q.conflict? c' = none := by
  obtain ⟨hname, hvariant⟩ := Prod.mk.inj hs
  rw [Pool.conflict?_eq_none_iff] at hn ⊢
  intro entry he dep hdep
  obtain ⟨twin, htwin, hshape⟩ := h.symm.find? (Roster.find?_name_of_mem he)
  have hmem := Named.mem_of_find? htwin
  rw [← hname, ← hvariant]
  exact hn twin hmem dep ((h.left twin hmem).deps_eq (h.right entry he) hshape ▸ hdep)

theorem settles (h : elements.Alike P Q) (hs : c.shape = c'.shape)
    (hx : c.isExplicit = c'.isExplicit) (hsettled : P.settles c = true) : Q.settles c' = true := by
  obtain ⟨hname, hvariant⟩ := Prod.mk.inj hs
  rw [Pool.settles_iff] at hsettled ⊢
  obtain ⟨entry, he, hsame⟩ := hsettled
  obtain ⟨twin, htwin, hshape⟩ := h.find? he
  rw [← hname, ← hvariant, ← hx]
  exact ⟨twin, htwin, hsame.imp_left ((Prod.mk.inj hshape).2.trans ·)⟩

theorem put (h : elements.Alike P Q) (hc : elements.Listed c) (hc' : elements.Listed c')
    (hs : c.shape = c'.shape) : elements.Alike (Roster.put P c) (Roster.put Q c') := by
  refine ⟨?_, ?_, ?_⟩
  · exact Roster.forall_mem_put hc h.left
  · exact Roster.forall_mem_put hc' h.right
  · intro n
    have hname : Named.name c = Named.name c' := (Prod.mk.inj hs).1
    rw [Roster.find?_put, Roster.find?_put, hname]
    by_cases hn : Named.name c' = n
    · simp [hn, hs]
    · simpa [hn] using h.same n

end Alike

theorem first_alike {f g : Configuration → Attempt} {cs : List Configuration}
    (h : ∀ c ∈ cs, elements.AlikeAttempts (f c) (g c)) (e e' : VariantError) :
    elements.AlikeAttempts (Attempt.first f cs e) (Attempt.first g cs e') := by
  induction cs generalizing e e' with
  | nil => exact .error e e'
  | cons c rest ih =>
    have hc := h c List.mem_cons_self
    rw [Attempt.first, Attempt.first]
    generalize f c = a at hc
    generalize g c = b at hc
    cases hc with
    | none => exact .none
    | error d d' => exact ih (fun c hc => h c (List.mem_cons_of_mem _ hc)) d d'
    | ok halike => exact .ok halike

theorem discharge_alike {f : Configuration → Pool → Attempt} {deps : List Dependency}
    (hf : ∀ dep ∈ deps, ∀ c ∈ elements.candidates dep, ∀ P Q, elements.Alike P Q →
      elements.AlikeAttempts (f c P) (f c Q))
    {P Q : Pool} (h : elements.Alike P Q) :
    elements.AlikeAttempts (elements.discharge f deps P) (elements.discharge f deps Q) := by
  induction deps generalizing P Q with
  | nil => exact .ok h
  | cons dep rest ih =>
    refine first_alike ?_ _ _
    intro c hc
    have hstep := hf dep List.mem_cons_self c hc P Q h
    generalize f c P = a at hstep
    generalize f c Q = b at hstep
    cases hstep with
    | none => exact .none
    | error d d' => exact .error d d'
    | ok halike => exact ih (fun d hd => hf d (List.mem_cons_of_mem _ hd)) halike

/-- What a search comes to hangs on the configuration, on whether it was asked for by name, and on what
elements the pool holds in what variants. -/
theorem configure_alike (d : Nat) {c c' : Configuration} {P Q : Pool} (h : elements.Alike P Q)
    (hc : elements.Listed c) (hc' : elements.Listed c') (hs : c.shape = c'.shape)
    (hx : c.isExplicit = c'.isExplicit) :
    elements.AlikeAttempts (elements.configure d c P) (elements.configure d c' Q) := by
  induction d generalizing c c' P Q with
  | zero => exact .none
  | succ d ih =>
    cases hn : P.conflict? c with
    | some e =>
      cases hn' : Q.conflict? c' with
      | some e' =>
        rw [configure_conflict hn, configure_conflict hn']
        exact .error e e'
      | none => simp [h.symm.conflict?_eq_none hs.symm hn'] at hn
    | none =>
      have hn' := h.conflict?_eq_none hs hn
      cases hsettled : P.settles c with
      | true =>
        rw [configure_settled hn hsettled, configure_settled hn' (h.settles hs hx hsettled)]
        exact .ok h
      | false =>
        have hsettled' : Q.settles c' = false := by
          cases hq : Q.settles c' with
          | false => rfl
          | true => simp [h.symm.settles hs.symm hx.symm hq] at hsettled
        rw [configure_put hn hsettled, configure_put hn' hsettled', hc.deps_eq hc' hs]
        refine discharge_alike ?_ (h.put hc hc' hs)
        intro dep _ cand hcand P Q hPQ
        exact ih hPQ (listed_candidate hcand) (listed_candidate hcand) rfl rfl

/-- Whether a search needs exactly one level more than `d`. -/
def Needs (elements : Elements) (d : Nat) (c : Configuration) (pool : Pool) : Prop :=
  elements.configure d c pool = none ∧ (elements.configure (d + 1) c pool).isSome

theorem Needs.unique {d d' : Nat} {c : Configuration} {pool : Pool}
    (h : elements.Needs d c pool) (h' : elements.Needs d' c pool) : d = d' := by
  -- a search that ends at one depth ends at every greater one
  have hle : ∀ {a b : Nat}, elements.Needs a c pool → elements.Needs b c pool → b ≤ a := by
    intro a b ha hb
    by_contra hlt
    obtain ⟨r, hr⟩ := Option.isSome_iff_exists.1 ha.2
    have hsome := configure_mono (by omega : a + 1 ≤ b) hr
    rw [hb.1] at hsome
    cases hsome
  exact Nat.le_antisymm (hle h' h) (hle h h')

/-- What a search needs is the same for pools and configurations that are alike. -/
theorem Needs.alike {d : Nat} {c c' : Configuration} {P Q : Pool} (h : elements.Needs d c P)
    (hPQ : elements.Alike P Q) (hc : elements.Listed c) (hc' : elements.Listed c')
    (hs : c.shape = c'.shape) (hx : c.isExplicit = c'.isExplicit) : elements.Needs d c' Q := by
  have hnow := configure_alike d hPQ hc hc' hs hx
  have hnext := configure_alike (d + 1) hPQ hc hc' hs hx
  obtain ⟨hnone, hsome⟩ := h
  refine ⟨?_, ?_⟩
  · rw [hnone] at hnow
    generalize elements.configure d c' Q = b at hnow
    cases hnow
    rfl
  · generalize elements.configure (d + 1) c P = a at hnext hsome
    generalize elements.configure (d + 1) c' Q = b at hnext
    cases hnext with
    | none => cases hsome
    | error => rfl
    | ok => rfl

/-- A search that needs two more levels than `d` goes on to one that needs one level less, with a
candidate for one of its dependencies, in a pool that it comes to on the way. -/
theorem Needs.descend {d : Nat} {c : Configuration} {pool : Pool} {p : Pool → Prop}
    (h : elements.Needs (d + 1) c pool)
    (hkeep : ∀ dep ∈ c.deps, ∀ cand ∈ elements.candidates dep, ∀ pool pool', p pool →
      elements.Configures cand pool pool' → p pool')
    (hpool : p (pool.put c)) :
    ∃ dep ∈ c.deps, ∃ cand ∈ elements.candidates dep, ∃ pool', p pool' ∧
      elements.Needs d cand pool' := by
  by_contra hnone
  obtain ⟨hnow, hnext⟩ := h
  cases hn : pool.conflict? c with
  | some e => simp [configure_conflict hn] at hnow
  | none =>
    cases hs : pool.settles c with
    | true => simp [configure_settled hn hs] at hnow
    | false =>
      rw [configure_put hn hs] at hnow hnext
      obtain ⟨r, hr⟩ := Option.isSome_iff_exists.1 hnext
      -- nothing below needs the last level, so the list would be discharged without it
      have hless : elements.discharge (elements.configure d) c.deps (pool.put c) = some r := by
        refine discharge_mono ?_ ?_ hpool hr
        · intro dep hdep cand hcand pool pool' hp hok
          exact hkeep dep hdep cand hcand pool pool' hp (configure_run hok)
        · intro dep hdep cand hcand pool' hp r hr
          cases hd : elements.configure d cand pool' with
          | some r' =>
            have hmono := configure_mono (Nat.le_succ d) hd
            rw [hr] at hmono
            exact hmono.symm
          | none =>
            have hneeds : elements.Needs d cand pool' := ⟨hd, by rw [hr]; rfl⟩
            exact absurd ⟨dep, hdep, cand, hcand, pool', hp, hneeds⟩ hnone
      rw [hnow] at hless
      cases hless

/-- The elements in the variants that a search from the configuration `c` may ask for. -/
def shapes (elements : Elements) (c : Configuration) : List (String × Option String) :=
  c.shape :: elements.toList.flatMap fun e =>
    (e.name, none) :: (e.variants.map fun v => (e.name, some v.name)) ++
      e.declaredDeps.map fun dep => (dep.name, dep.variant)

theorem length_shapes (elements : Elements) (c : Configuration) :
    (elements.shapes c).length = elements.configurationCount := by
  rw [shapes, configurationCount]
  induction elements.toList with
  | nil => rfl
  | cons e rest ih =>
    simp only [List.flatMap_cons, List.length_cons, List.length_append, List.length_map,
      List.foldr_cons] at ih ⊢
    omega

theorem shape_candidate_mem {c cand : Configuration} {dep : Dependency}
    (hdep : dep ∈ elements.declaredDeps) (h : cand ∈ elements.candidates dep) :
    cand.shape ∈ elements.shapes c := by
  obtain ⟨-, helem, hasked, e, he, hadm, -⟩ := candidate_spec h
  have hname : e.name = dep.name := Named.name_of_find? he
  rw [shapes]
  refine List.mem_cons_of_mem _ (List.mem_flatMap.2 ?_)
  cases hv : dep.variant with
  | some v =>
    obtain ⟨owner, howner, hmem⟩ := List.mem_flatMap.1 hdep
    refine ⟨owner, howner, List.mem_append_right _ (List.mem_map.2 ⟨dep, hmem, ?_⟩)⟩
    rw [Configuration.shape, helem, hasked v hv, hv]
  | none =>
    refine ⟨e, Named.mem_of_find? he, List.mem_append_left _ ?_⟩
    rw [Configuration.shape, helem, ← hname]
    rw [admitted, hv] at hadm
    cases hvs : e.variants with
    | nil =>
      have hnone : cand.variant = none := by simpa [hvs] using hadm
      rw [hnone]
      exact List.mem_cons_self
    | cons w rest =>
      simp only [hvs, List.isEmpty_cons, Bool.false_eq_true, if_false] at hadm
      obtain ⟨v, hmem, heq⟩ := List.mem_map.1 hadm
      exact List.mem_cons_of_mem _ (List.mem_map.2 ⟨v, hmem, by rw [heq]⟩)

/-- Whether a configuration is one that a search over the shapes `space` may meet. -/
structure Within (elements : Elements) (space : List (String × Option String))
    (c : Configuration) : Prop where
  listed : elements.Listed c
  mem : c.shape ∈ space

/-- A point of a search, as far as what the search comes to hangs on it. -/
def key (c : Configuration) (pool : Pool) :
    ((String × Option String) × Bool) × Finset (String × Option String) :=
  ((c.shape, c.isExplicit), (pool.toList.map Configuration.shape).toFinset)

theorem find?_of_shapes_subset {P Q : Pool}
    (h : ∀ s ∈ P.toList.map Configuration.shape, s ∈ Q.toList.map Configuration.shape) {n : String}
    {c : Configuration} (hc : P.find? n = some c) : ∃ c', Q.find? n = some c' ∧ c'.shape = c.shape := by
  obtain ⟨c', hmem, hshape⟩ :=
    List.mem_map.1 (h c.shape (List.mem_map_of_mem (Named.mem_of_find? hc)))
  have hname : c'.element = n := (Prod.mk.inj hshape).1.trans (Named.name_of_find? hc)
  exact ⟨c', hname ▸ Roster.find?_name_of_mem hmem, hshape⟩

theorem alike_of_shapes {P Q : Pool} (hP : ∀ c ∈ P.toList, elements.Listed c)
    (hQ : ∀ c ∈ Q.toList, elements.Listed c)
    (h : ∀ s, s ∈ P.toList.map Configuration.shape ↔ s ∈ Q.toList.map Configuration.shape) :
    elements.Alike P Q := by
  refine ⟨hP, hQ, fun n => ?_⟩
  cases hp : P.find? n with
  | some c =>
    obtain ⟨c', hc', hshape⟩ := find?_of_shapes_subset (fun s => (h s).1) hp
    simp [hc', hshape]
  | none =>
    cases hq : Q.find? n with
    | none => rfl
    | some c =>
      obtain ⟨c', hc', -⟩ := find?_of_shapes_subset (fun s => (h s).2) hq
      simp [hp] at hc'

section

variable {space : List (String × Option String)}
  (hspace : ∀ dep ∈ elements.declaredDeps, ∀ c ∈ elements.candidates dep, c.shape ∈ space)

include hspace

theorem Configures.within {c : Configuration} {pool pool' : Pool}
    (h : elements.Configures c pool pool') (hc : elements.Within space c)
    (hpool : ∀ entry ∈ pool.toList, elements.Within space entry) :
    ∀ entry ∈ pool'.toList, elements.Within space entry := by
  cases hs : pool.settles c with
  | true => exact h.settled hs ▸ hpool
  | false =>
    refine ((h.run hs).keeps (fun _ hw _ => hw.listed.mem_declaredDeps)
      (fun dep hdep c hc => ⟨listed_candidate hc, hspace dep hdep c hc⟩) ?_ ?_).2
    · exact fun _ => hc.listed.mem_declaredDeps
    · exact Roster.forall_mem_put hc hpool

/-- A search that needs many levels meets a point that needs `k` of them, for every smaller `k`. -/
theorem Needs.below {d k : Nat} (hk : k ≤ d) {c : Configuration} {pool : Pool}
    (h : elements.Needs d c pool) (hc : elements.Within space c)
    (hpool : ∀ entry ∈ pool.toList, elements.Within space entry) :
    ∃ c' pool', elements.Needs k c' pool' ∧ elements.Within space c' ∧
      ∀ entry ∈ pool'.toList, elements.Within space entry := by
  induction d generalizing c pool with
  | zero =>
    obtain rfl : k = 0 := by omega
    exact ⟨c, pool, h, hc, hpool⟩
  | succ d ih =>
    rcases Nat.lt_or_eq_of_le hk with hlt | rfl
    · have hcand : ∀ dep ∈ c.deps, ∀ cand ∈ elements.candidates dep,
          elements.Within space cand := fun dep hdep cand hcand =>
        ⟨listed_candidate hcand, hspace dep (hc.listed.mem_declaredDeps hdep) cand hcand⟩
      obtain ⟨dep, hdep, cand, hmem, pool', hpool', hneeds⟩ :=
        h.descend (p := fun pool => ∀ entry ∈ pool.toList, elements.Within space entry)
          (fun dep hdep cand hmem _ _ hp hconf => hconf.within hspace (hcand dep hdep cand hmem) hp)
          (Roster.forall_mem_put hc hpool)
      exact ih (by omega) hneeds (hcand dep hdep cand hmem) hpool'
    · exact ⟨c, pool, h, hc, hpool⟩

/-- A search needs no more levels than there are points of it. -/
theorem Needs.lt_card {d : Nat} {c : Configuration} {pool : Pool} (h : elements.Needs d c pool)
    (hc : elements.Within space c) (hpool : ∀ entry ∈ pool.toList, elements.Within space entry) :
    d + 1 ≤ space.length * 2 * 2 ^ space.length := by
  choose conf pools hneeds hconf hpools using
    fun k : Fin (d + 1) => h.below hspace (Nat.le_of_lt_succ k.isLt) hc hpool
  -- points with one key need equally many levels, so no two of these have one
  have hinj : Function.Injective fun k => key (conf k) (pools k) := by
    intro i j hij
    obtain ⟨hfst, hset⟩ := Prod.mk.inj hij
    obtain ⟨hshape, hexplicit⟩ := Prod.mk.inj hfst
    have halike : elements.Alike (pools i) (pools j) := by
      refine alike_of_shapes (fun c hc => (hpools i c hc).listed)
        (fun c hc => (hpools j c hc).listed) fun s => ?_
      rw [← List.mem_toFinset, hset, List.mem_toFinset]
    exact Fin.ext (((hneeds i).alike halike (hconf i).listed (hconf j).listed hshape
      hexplicit).unique (hneeds j))
  have hmaps : ∀ k ∈ (Finset.univ : Finset (Fin (d + 1))), key (conf k) (pools k) ∈
      (space.toFinset ×ˢ (Finset.univ : Finset Bool)) ×ˢ space.toFinset.powerset := by
    intro k _
    refine Finset.mem_product.2 ⟨Finset.mem_product.2 ⟨?_, Finset.mem_univ _⟩, ?_⟩
    · exact List.mem_toFinset.2 (hconf k).mem
    · refine Finset.mem_powerset.2 fun s hs => ?_
      obtain ⟨entry, he, rfl⟩ := List.mem_map.1 (List.mem_toFinset.1 hs)
      exact List.mem_toFinset.2 (hpools k entry he).mem
  have hcard := Finset.card_le_card_of_injOn _ hmaps hinj.injOn
  have hspaceCard : space.toFinset.card ≤ space.length := List.toFinset_card_le space
  calc d + 1 = (Finset.univ : Finset (Fin (d + 1))).card := by simp
    _ ≤ space.toFinset.card * 2 * 2 ^ space.toFinset.card := by simpa using hcard
    _ ≤ space.length * 2 * 2 ^ space.length :=
      Nat.mul_le_mul (Nat.mul_le_mul_right 2 hspaceCard) (Nat.pow_le_pow_right (by omega) hspaceCard)

end

theorem searchDepth_bound (elements : Elements) :
    elements.configurationCount * 2 * 2 ^ elements.configurationCount ≤ elements.searchDepth := by
  have hpos : 1 ≤ elements.configurationCount := by
    rw [← length_shapes elements ⟨none, "", none, []⟩, shapes]
    exact Nat.succ_le_succ (Nat.zero_le _)
  have hpow : 2 ^ elements.configurationCount ≤
      (elements.configurationCount + 1) ^ elements.configurationCount :=
    Nat.pow_le_pow_left (by omega) _
  calc elements.configurationCount * 2 * 2 ^ elements.configurationCount
      ≤ elements.configurationCount * 2 *
          (elements.configurationCount + 1) ^ elements.configurationCount :=
        Nat.mul_le_mul_left _ hpow
    _ = 2 * elements.configurationCount *
          (elements.configurationCount + 1) ^ elements.configurationCount := by
        rw [Nat.mul_comm elements.configurationCount 2]
    _ ≤ elements.searchDepth := Nat.le_succ _

/-- A search that ends at all ends within the depth that it is given. -/
theorem configure_searchDepth {e : Element} {variant : Option String}
    {target : String} (known : elements.find? target = some e) {d : Nat} {r : Except VariantError Pool}
    (h : elements.configure d (start e variant) .empty = some r) :
    elements.configure elements.searchDepth (start e variant) .empty = some r := by
  have hex : ∃ n, (elements.configure n (start e variant) .empty).isSome := ⟨d, by rw [h]; rfl⟩
  classical
  obtain ⟨n, hn⟩ : ∃ n, Nat.find hex = n + 1 := by
    refine Nat.exists_eq_succ_of_ne_zero fun hzero => ?_
    have hfound := Nat.find_spec hex
    rw [hzero] at hfound
    cases hfound
  have hneeds : elements.Needs n (start e variant) .empty := by
    refine ⟨?_, hn ▸ Nat.find_spec hex⟩
    have hmin := Nat.find_min hex (m := n) (by omega)
    cases hnone : elements.configure n (start e variant) .empty with
    | none => rfl
    | some a => simp [hnone] at hmin
  have hle : n + 1 ≤ elements.searchDepth := by
    have hspace : ∀ dep ∈ elements.declaredDeps, ∀ c ∈ elements.candidates dep,
        c.shape ∈ elements.shapes (start e variant) := fun _ hdep _ hc => shape_candidate_mem hdep hc
    refine Nat.le_trans (hneeds.lt_card hspace ?_ ?_) ?_
    · exact ⟨listed_start known variant, List.mem_cons_self⟩
    · intro c hc
      cases hc
    · rw [length_shapes]
      exact searchDepth_bound elements
  obtain ⟨a, ha⟩ := Option.isSome_iff_exists.1 hneeds.2
  have hboth := configure_mono (Nat.le_max_left (n + 1) d) ha
  rw [configure_mono (Nat.le_max_right (n + 1) d) h] at hboth
  rw [hboth]
  exact configure_mono hle ha

/-- What a target resolves to is what the search comes to at any depth at which it ends. -/
theorem resolve_of_configure {target : String} {variant : Option String} {e : Element}
    (known : elements.find? target = some e) {d : Nat} {r : Except VariantError Pool}
    (h : elements.configure d (start e variant) .empty = some r) :
    elements.resolve target variant = r.mapError .variantConflict := by
  have hdepth := configure_searchDepth known h
  rw [start] at hdepth
  simp [resolve, known, hdepth]

/-- A target is said to have an endless search exactly if its search ends at no depth. -/
theorem resolve_eq_endlessSearch_iff {target : String} {variant : Option String} {e : Element}
    (known : elements.find? target = some e) :
    elements.resolve target variant = .error (.endlessSearch target) ↔
      ∀ d, elements.configure d (start e variant) .empty = none := by
  constructor
  · intro hend d
    cases hd : elements.configure d (start e variant) .empty with
    | none => rfl
    | some r =>
      rw [resolve_of_configure known hd] at hend
      cases r <;> simp [Except.mapError] at hend
  · intro hnone
    have hdepth := hnone elements.searchDepth
    rw [start] at hdepth
    simp [resolve, known, hdepth]

end Elements

end BuildGraph
