import Mathlib.Data.List.Basic
import Mathlib.Logic.Relation

/-!
# Depth-first pre-orders

The list that a recursive depth-first walk makes: a name that was not met before is listed, then all
that it leads to, each with what follows it, and only then what was pending beside it. A walk that puts
what a name leads to in front of all that is pending makes the same list (`Preorder.of_append`).
-/

namespace BuildGraph

/-- Visiting the pending names in order, each with all that it leads to, makes `listed` out of the names
`seen` before. -/
inductive Preorder (leads : String → List String → Prop) :
    (pending seen listed : List String) → Prop
  | done {seen : List String} : Preorder leads [] seen seen
  | skip {n : String} {rest seen listed : List String} : n ∈ seen →
    Preorder leads rest seen listed → Preorder leads (n :: rest) seen listed
  | visit {n : String} {next rest seen mid listed : List String} : n ∉ seen → leads n next →
    Preorder leads next (seen ++ [n]) mid → Preorder leads rest mid listed →
    Preorder leads (n :: rest) seen listed

namespace Preorder

variable {leads : String → List String → Prop} {pending seen listed : List String}

/-- Whether a name leads to another one. -/
def Edge (leads : String → List String → Prop) (m n : String) : Prop :=
  ∃ next, leads m next ∧ n ∈ next

/-- A walk over two lists walks over the first one and then over the other. -/
theorem of_append {others : List String} (h : Preorder leads (pending ++ others) seen listed) :
    ∃ mid, Preorder leads pending seen mid ∧ Preorder leads others mid listed := by
  -- the induction is on the walk over both, which passes over the first list in any number of steps
  generalize hall : pending ++ others = all at h
  induction h generalizing pending with
  | done =>
    obtain ⟨rfl, rfl⟩ := List.append_eq_nil_iff.1 hall
    exact ⟨_, .done, .done⟩
  | @skip n rest seen listed hn hrest ih =>
    cases pending with
    | nil =>
      rw [List.nil_append] at hall
      exact ⟨_, .done, hall ▸ .skip hn hrest⟩
    | cons first pending =>
      obtain ⟨rfl, htail⟩ := List.cons.inj hall
      obtain ⟨mid, hpending, hothers⟩ := ih htail
      exact ⟨mid, .skip hn hpending, hothers⟩
  | @visit n next rest seen between listed hn hnext hdown hrest _ ih =>
    cases pending with
    | nil =>
      rw [List.nil_append] at hall
      exact ⟨_, .done, hall ▸ .visit hn hnext hdown hrest⟩
    | cons first pending =>
      obtain ⟨rfl, htail⟩ := List.cons.inj hall
      obtain ⟨mid, hpending, hothers⟩ := ih htail
      exact ⟨mid, .visit hn hnext hdown hpending, hothers⟩

/-- A walk only adds to the names seen before. -/
theorem exists_append (h : Preorder leads pending seen listed) : ∃ new, listed = seen ++ new := by
  induction h with
  | done => exact ⟨[], (List.append_nil _).symm⟩
  | skip _ _ ih => exact ih
  | @visit n _ _ seen _ _ _ _ _ _ ihDown ihRest =>
    obtain ⟨down, rfl⟩ := ihDown
    obtain ⟨later, rfl⟩ := ihRest
    exact ⟨n :: (down ++ later), by simp⟩

theorem seen_subset (h : Preorder leads pending seen listed) : seen ⊆ listed := by
  obtain ⟨new, rfl⟩ := h.exists_append
  exact List.subset_append_left _ _

theorem pending_subset (h : Preorder leads pending seen listed) : pending ⊆ listed := by
  induction h with
  | done => exact List.nil_subset _
  | skip hn hrest ih => exact List.cons_subset.2 ⟨hrest.seen_subset hn, ih⟩
  | visit _ _ hdown hrest _ ih =>
    have hlisted := hdown.seen_subset (List.mem_append_right _ List.mem_cons_self)
    exact List.cons_subset.2 ⟨hrest.seen_subset hlisted, ih⟩

theorem nodup (h : Preorder leads pending seen listed) (hseen : seen.Nodup) : listed.Nodup := by
  induction h with
  | done => exact hseen
  | skip _ _ ih => exact ih hseen
  | visit hn _ _ _ ihDown ihRest =>
    have hnew := (List.perm_append_singleton _ _).nodup_iff.2 (List.nodup_cons.2 ⟨hn, hseen⟩)
    exact ihRest (ihDown hnew)

/-- What is listed was seen before or is reached from what is pending. -/
theorem reached (h : Preorder leads pending seen listed) {m : String} (hm : m ∈ listed) :
    m ∈ seen ∨ ∃ p ∈ pending, Relation.ReflTransGen (Edge leads) p m := by
  induction h with
  | done => exact .inl hm
  | skip _ _ ih =>
    rcases ih hm with hold | ⟨p, hp, hreach⟩
    · exact .inl hold
    · exact .inr ⟨p, List.mem_cons_of_mem _ hp, hreach⟩
  | @visit n next rest seen mid listed _ hnext _ _ ihDown ihRest =>
    rcases ihRest hm with hmid | ⟨p, hp, hreach⟩
    · rcases ihDown hmid with hseen | ⟨p, hp, hreach⟩
      · rcases List.mem_append.1 hseen with hold | hself
        · exact .inl hold
        · obtain rfl : m = n := List.mem_singleton.1 hself
          exact .inr ⟨m, List.mem_cons_self, .refl⟩
      · exact .inr ⟨n, List.mem_cons_self, .head ⟨next, hnext, hp⟩ hreach⟩
    · exact .inr ⟨p, List.mem_cons_of_mem _ hp, hreach⟩

/-- What is listed was seen before, or all that it leads to is listed. -/
theorem closed (h : Preorder leads pending seen listed) {m : String} (hm : m ∈ listed) :
    m ∈ seen ∨ ∃ next, leads m next ∧ next ⊆ listed := by
  induction h with
  | done => exact .inl hm
  | skip _ _ ih => exact ih hm
  | @visit n next rest seen mid listed _ hnext hdown hrest ihDown ihRest =>
    rcases ihRest hm with hmid | hclosed
    · rcases ihDown hmid with hseen | ⟨next', hnext', hsub⟩
      · rcases List.mem_append.1 hseen with hold | hself
        · exact .inl hold
        · obtain rfl : m = n := List.mem_singleton.1 hself
          exact .inr ⟨next, hnext, fun k hk => hrest.seen_subset (hdown.pending_subset hk)⟩
      · exact .inr ⟨next', hnext', fun k hk => hrest.seen_subset (hsub hk)⟩
    · exact .inr hclosed

/-- Where each name leads to one list only, a walk lists exactly what is reached. -/
theorem mem_iff (h : Preorder leads pending [] listed)
    (unique : ∀ n next next', leads n next → leads n next' → next = next') {m : String} :
    m ∈ listed ↔ ∃ p ∈ pending, Relation.ReflTransGen (Edge leads) p m := by
  constructor
  · exact fun hm => (h.reached hm).resolve_left List.not_mem_nil
  · rintro ⟨p, hp, hreach⟩
    induction hreach with
    | refl => exact h.pending_subset hp
    | tail _ hstep ih =>
      obtain ⟨next, hnext, hmem⟩ := hstep
      obtain ⟨next', hnext', hsub⟩ := (h.closed ih).resolve_left List.not_mem_nil
      exact hsub (unique _ _ _ hnext hnext' ▸ hmem)

/-- Where each name leads to one list only, there is one pre-order. -/
theorem unique {other : List String} (h : Preorder leads pending seen listed)
    (hunique : ∀ n next next', leads n next → leads n next' → next = next')
    (h' : Preorder leads pending seen other) : listed = other := by
  induction h generalizing other with
  | done =>
    cases h'
    rfl
  | skip hn _ ih =>
    cases h' with
    | skip _ hrest' => exact ih hrest'
    | visit hn' => exact absurd hn hn'
  | visit hn hnext _ _ ihDown ihRest =>
    cases h' with
    | skip hn' => exact absurd hn' hn
    | visit _ hnext' hdown' hrest' =>
      obtain rfl := hunique _ _ _ hnext hnext'
      obtain rfl := ihDown hdown'
      exact ihRest hrest'

end Preorder

end BuildGraph
