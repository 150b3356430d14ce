import BuildGraph.Proofs.Project.Path

/-!
# Where paths lead

Read as a walk, a relative path leads to a place: some directories above the start, and from there down
by names. The normal form of a path spells this place out, so that two paths have one normal form
exactly if they lead to one place.
-/

namespace BuildGraph.Path

/-- A component that leads down. -/
structure IsName (c : String) : Prop extends IsComponent c where
  down : c ≠ parent

/-- Where a walk has come to: so many directories above its start, and then down by names. -/
structure Place where
  up : Nat
  down : List String
deriving DecidableEq, Repr

namespace Place

/-- Where every walk begins. -/
def start : Place := ⟨0, []⟩

/-- Where one component leads. From the start and from above it, `..` goes up once more. -/
def step (p : Place) (c : String) : Place :=
  if c = "" ∨ c = "." then p
  else if c = parent then
    if p.down = [] then ⟨p.up + 1, []⟩ else ⟨p.up, p.down.dropLast⟩
  else ⟨p.up, p.down ++ [c]⟩

/-- Whether a place is below its turning point by names only. -/
def Named (p : Place) : Prop := ∀ n ∈ p.down, IsName n

/-- The components that lead to a place without a detour. -/
def parts (p : Place) : List String := List.replicate p.up parent ++ p.down

@[simp] theorem step_empty (p : Place) : p.step "" = p := rfl

@[simp] theorem step_dot (p : Place) : p.step "." = p := rfl

theorem step_name {c : String} (p : Place) (hc : IsName c) : p.step c = ⟨p.up, p.down ++ [c]⟩ := by
  rw [step, if_neg (not_or.2 ⟨hc.nonempty, hc.moves⟩), if_neg hc.down]

theorem step_parent_nil (up : Nat) : step ⟨up, []⟩ parent = ⟨up + 1, []⟩ := rfl

theorem step_parent_concat (up : Nat) (down : List String) (n : String) :
    step ⟨up, down ++ [n]⟩ parent = ⟨up, down⟩ := by
  have hmoves : ¬(parent = "" ∨ parent = ".") := by decide
  simp [step, hmoves]

theorem named_start : start.Named := fun _ h => absurd h List.not_mem_nil

theorem Named.step {p : Place} (h : p.Named) {c : String} (hc : IsComponent c) : (p.step c).Named := by
  obtain ⟨up, down⟩ := p
  by_cases hparent : c = parent
  · subst hparent
    rcases List.eq_nil_or_concat down with rfl | ⟨before, last, rfl⟩
    · exact fun _ hn => absurd hn List.not_mem_nil
    · rw [List.concat_eq_append] at h ⊢
      rw [step_parent_concat]
      exact fun n hn => h n (List.mem_append_left _ hn)
  · have hname : IsName c := ⟨hc, hparent⟩
    rw [step_name _ hname]
    intro n hn
    rcases List.mem_append.1 hn with hold | hlast
    · exact h n hold
    · exact List.mem_singleton.1 hlast ▸ hname

theorem Named.foldl_step {p : Place} (h : p.Named) {cs : List String} (hcs : ∀ c ∈ cs, IsComponent c) :
    (cs.foldl Place.step p).Named := by
  induction cs generalizing p with
  | nil => exact h
  | cons c cs ih =>
    exact ih (h.step (hcs c List.mem_cons_self)) fun x hx => hcs x (List.mem_cons_of_mem _ hx)

theorem parent_not_mem_down {p : Place} (h : p.Named) : parent ∉ p.down :=
  fun hmem => (h parent hmem).down rfl

/-- The components that lead to a place tell how far up it is and what lies below. -/
theorem parts_injective {p q : Place} (hp : p.Named) (hq : q.Named) (h : p.parts = q.parts) : p = q := by
  have hcount (r : Place) (hr : r.Named) : r.parts.count parent = r.up := by
    rw [parts, List.count_append, List.count_replicate_self,
      List.count_eq_zero.2 (parent_not_mem_down hr), Nat.add_zero]
  have hup : p.up = q.up := by rw [← hcount p hp, ← hcount q hq, h]
  obtain ⟨up, down⟩ := p
  obtain ⟨up', down'⟩ := q
  obtain rfl : up = up' := hup
  rw [parts, parts, List.append_cancel_left_eq] at h
  exact congrArg (Place.mk up) h

/-- One component leads from place to place as it extends or shortens the trail that leads there. -/
theorem follow_parts {p : Place} (hp : p.Named) {c : String} (hc : IsComponent c) :
    follow p.parts.reverse c = (p.step c).parts.reverse := by
  obtain ⟨up, down⟩ := p
  by_cases hparent : c = parent
  · subst hparent
    rcases List.eq_nil_or_concat down with rfl | ⟨before, last, rfl⟩
    · -- Above the start there is only `..` on the trail, and one more is kept.
      rw [step_parent_nil]
      cases up with
      | zero => rfl
      | succ up =>
        have hreverse (n : Nat) : (parts ⟨n, []⟩).reverse = List.replicate n parent := by
          rw [parts, List.append_nil, List.reverse_replicate]
        rw [hreverse, hreverse, List.replicate_succ, follow, if_neg (by decide)]
        rfl
    · have hlast : last ≠ parent := (hp last (by simp)).down
      rw [List.concat_eq_append, step_parent_concat]
      simp [parts, follow, hlast]
  · rw [step_name _ ⟨hc, hparent⟩, parts, parts, ← List.append_assoc, List.reverse_concat]
    cases hrev : (List.replicate up parent ++ down).reverse with
    | nil => rfl
    | cons last before => simp [follow, hparent]

theorem foldl_follow_parts {p : Place} (hp : p.Named) {cs : List String}
    (hcs : ∀ c ∈ cs, IsComponent c) :
    cs.foldl follow p.parts.reverse = (cs.foldl step p).parts.reverse := by
  induction cs generalizing p with
  | nil => rfl
  | cons c cs ih =>
    have hc := hcs c List.mem_cons_self
    rw [List.foldl_cons, List.foldl_cons, follow_parts hp hc,
      ih (hp.step hc) fun x hx => hcs x (List.mem_cons_of_mem _ hx)]

end Place

/-- Where a relative path leads: the walk along all that stands between its slashes. -/
def place (path : String) : Place :=
  ((path.toList.splitOn '/').map String.ofList).foldl Place.step .start

/-- What the components leave out goes nowhere. -/
theorem place_eq_foldl_components {path : String} (h : isAbsolute path = false) :
    place path = (components path).foldl Place.step .start := by
  rw [components, h, if_neg Bool.false_ne_true, List.foldl_filter, place]
  congr 1
  funext p c
  by_cases hempty : c = ""
  · simp [hempty]
  by_cases hdot : c = "."
  · simp [hdot]
  simp [hempty, hdot]

theorem named_place {path : String} (h : isAbsolute path = false) : (place path).Named := by
  rw [place_eq_foldl_components h]
  exact Place.named_start.foldl_step fun c hc => isComponent_of_mem_components h hc

/-- The components of the normal form are those that lead to the place of the path directly. -/
theorem normalParts_eq_parts {path : String} (h : isAbsolute path = false) :
    normalParts path = (place path).parts := by
  have hcomponents : ∀ c ∈ components path, IsComponent c :=
    fun c hc => isComponent_of_mem_components h hc
  have hfold := Place.foldl_follow_parts Place.named_start hcomponents
  rw [normalParts, place_eq_foldl_components h, ← List.reverse_reverse (Place.parts _), ← hfold]
  rfl

theorem join_injective {ps qs : List String} (hps : ∀ c ∈ ps, IsComponent c)
    (hqs : ∀ c ∈ qs, IsComponent c) (h : join ps = join qs) : ps = qs := by
  rw [← components_join hps, h, components_join hqs]

theorem place_eq_of_normalize_eq {f g : String} (hf : isAbsolute f = false)
    (hg : isAbsolute g = false) (h : normalize f = normalize g) : place f = place g := by
  have hparts : normalParts f = normalParts g :=
    join_injective (fun _ => isComponent_of_mem_normalParts hf)
      (fun _ => isComponent_of_mem_normalParts hg) h
  rw [normalParts_eq_parts hf, normalParts_eq_parts hg] at hparts
  exact Place.parts_injective (named_place hf) (named_place hg) hparts

theorem normalize_eq_of_place_eq {f g : String} (hf : isAbsolute f = false)
    (hg : isAbsolute g = false) (h : place f = place g) : normalize f = normalize g := by
  rw [normalize, normalize, normalParts_eq_parts hf, normalParts_eq_parts hg, h]

/-- The normal form of a path leads where the path leads. -/
theorem place_normalize {path : String} (h : isAbsolute path = false) :
    place (normalize path) = place path :=
  place_eq_of_normalize_eq (isAbsolute_join fun _ => isComponent_of_mem_normalParts h) h
    (normalize_normalize h)

/-- Two relative paths have one normal form exactly if they lead to one place. A normal form is some
`..` and then names, and it is its own normal form. -/
theorem normalize_canonical {f g : String} (hf : isAbsolute f = false) (hg : isAbsolute g = false) :
    (normalize f = normalize g ↔ place f = place g) ∧
      (∃ up names, normalize f = join (List.replicate up parent ++ names) ∧ ∀ n ∈ names, IsName n) ∧
      normalize (normalize f) = normalize f := by
  refine ⟨⟨place_eq_of_normalize_eq hf hg, normalize_eq_of_place_eq hf hg⟩, ?_, normalize_normalize hf⟩
  refine ⟨(place f).up, (place f).down, ?_, named_place hf⟩
  rw [normalize, normalParts_eq_parts hf, Place.parts]

/-- A detour through a directory that is left again changes nothing, neither below the start nor above
it. -/
theorem outside_normalize_canonical :
    (normalize "../lib/./x//../c.bst" = normalize "../lib/c.bst" ↔
        place "../lib/./x//../c.bst" = place "../lib/c.bst") ∧
      (∃ up names, normalize "../lib/./x//../c.bst" = join (List.replicate up parent ++ names) ∧
        ∀ n ∈ names, IsName n) ∧
      normalize (normalize "../lib/./x//../c.bst") = normalize "../lib/./x//../c.bst" :=
  normalize_canonical (by decide) (by decide)

example : normalize "../lib/./x//../c.bst" = "../lib/c.bst" := by decide

example : place "a/../../b" = ⟨1, ["b"]⟩ := by decide

end BuildGraph.Path
