import BuildGraph.Error
import Mathlib.Data.List.Forall2

/-!
# Steps that succeed, and steps that fail
-/

namespace BuildGraph

/-- A sequence of two steps succeeds if the first one does, and the second one with its result. -/
theorem bind_eq_ok_iff {ε α β : Type} {x : Except ε α} {f : α → Except ε β} {b : β} :
    (x >>= f) = .ok b ↔ ∃ a, x = .ok a ∧ f a = .ok b := by
  cases x <;> simp [bind, Except.bind]

/-- A sequence of two steps fails where the first one does, or else the second one. -/
theorem bind_eq_error_iff {ε α β : Type} {x : Except ε α} {f : α → Except ε β} {e : ε} :
    (x >>= f) = .error e ↔ x = .error e ∨ ∃ a, x = .ok a ∧ f a = .error e := by
  cases x <;> simp [bind, Except.bind]

theorem map_eq_ok_iff {ε α β : Type} {x : Except ε α} {f : α → β} {b : β} :
    (f <$> x) = .ok b ↔ ∃ a, x = .ok a ∧ f a = b := by
  cases x <;> simp [Functor.map, Except.map]

theorem pure_eq_ok_iff {ε α : Type} {a b : α} : (pure a : Except ε α) = .ok b ↔ a = b := by
  simp [pure, Except.pure]

theorem mapError_eq_error_iff {ε ε' α : Type} {x : Except ε α} {f : ε → ε'} {e : ε'} :
    x.mapError f = .error e ↔ ∃ e₀, x = .error e₀ ∧ f e₀ = e := by
  cases x with
  | error found =>
    have herror : (Except.error found : Except ε α).mapError f = .error (f found) := rfl
    simp [herror]
  | ok a =>
    have hok : (Except.ok a : Except ε α).mapError f = .ok a := rfl
    simp [hok]

theorem mapError_eq_ok_iff {ε ε' α : Type} {x : Except ε α} {f : ε → ε'} {a : α} :
    x.mapError f = .ok a ↔ x = .ok a := by
  cases x with
  | error e => exact ⟨nofun, nofun⟩
  | ok found =>
    have hok : (Except.ok found : Except ε α).mapError f = .ok found := rfl
    rw [hok, Except.ok.injEq, Except.ok.injEq]

theorem toOption_eq_some_iff {ε α : Type} {x : Except ε α} {a : α} :
    x.toOption = some a ↔ x = .ok a := by
  cases x <;> simp [Except.toOption]

/-- An access succeeds in a load as it does by itself. -/
theorem access_eq_ok_iff {α : Type} {x : Except AccessError α} {a : α} :
    (liftM x : Except LoadError α) = .ok a ↔ x = .ok a :=
  mapError_eq_ok_iff

/-- Of two lists that are related item by item, each item of the first has one of the second. -/
theorem exists_of_forall₂ {α β : Type} {r : α → β → Prop} {as : List α} {bs : List β}
    (h : List.Forall₂ r as bs) {a : α} (ha : a ∈ as) : ∃ b ∈ bs, r a b := by
  induction h with
  | nil => cases ha
  | @cons first b _ _ hfirst _ ih =>
    rcases List.mem_cons.1 ha with rfl | hrest
    · exact ⟨b, List.mem_cons_self, hfirst⟩
    · obtain ⟨c, hc, hr⟩ := ih hrest
      exact ⟨c, List.mem_cons_of_mem _ hc, hr⟩

theorem exists_of_forall₂_right {α β : Type} {r : α → β → Prop} {as : List α} {bs : List β}
    (h : List.Forall₂ r as bs) {b : β} (hb : b ∈ bs) : ∃ a ∈ as, r a b := by
  have hflip : List.Forall₂ (flip r) bs as := h.flip
  exact exists_of_forall₂ hflip hb

/-- What comes out of steps over a list comes out of one of them. -/
theorem exists_of_mem_mapM {ε α β : Type} {f : α → Except ε β} {xs : List α} {ys : List β} {y : β}
    (h : xs.mapM f = .ok ys) (hy : y ∈ ys) : ∃ x ∈ xs, f x = .ok y := by
  induction xs generalizing ys with
  | nil =>
    obtain rfl := pure_eq_ok_iff.1 h
    cases hy
  | cons x rest ih =>
    simp only [List.mapM_cons, bind_eq_ok_iff, pure_eq_ok_iff] at h
    obtain ⟨first, hfirst, others, hothers, rfl⟩ := h
    rcases List.mem_cons.1 hy with rfl | hrest
    · exact ⟨x, List.mem_cons_self, hfirst⟩
    · obtain ⟨later, hlater, hread⟩ := ih hothers hrest
      exact ⟨later, List.mem_cons_of_mem _ hlater, hread⟩

/-- Steps over a list fail where one of them does. -/
theorem exists_of_mapM_eq_error {ε α β : Type} {f : α → Except ε β} {xs : List α} {e : ε}
    (h : xs.mapM f = .error e) : ∃ x ∈ xs, f x = .error e := by
  induction xs with
  | nil => cases h
  | cons x rest ih =>
    rw [List.mapM_cons, bind_eq_error_iff] at h
    rcases h with hfirst | ⟨first, -, h⟩
    · exact ⟨x, List.mem_cons_self, hfirst⟩
    · rw [bind_eq_error_iff] at h
      rcases h with hothers | ⟨others, -, h⟩
      · obtain ⟨later, hlater, hfails⟩ := ih hothers
        exact ⟨later, List.mem_cons_of_mem _ hlater, hfails⟩
      · cases h

end BuildGraph
