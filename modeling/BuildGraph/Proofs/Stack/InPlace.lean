import BuildGraph.Proofs.Stack.Embedded
import BuildGraph.Proofs.Variant.Consistency

/-!
# Expansions in place

All that may fail in an expansion is done before the table is written to, so an expansion that works
in place and fails leaves the table as it was.
-/

namespace BuildGraph

section

variable {σ ε α β : Type} {s t : σ}

theorem lift_bind_run (x : Except ε α) (f : α → ExceptT ε (StateM σ) β) :
    ((x : ExceptT ε (StateM σ) α) >>= f).run.run s =
      match x with
      | .ok a => (f a).run.run s
      | .error e => (.error e, s) := by
  cases x <;> rfl

theorem bind_run_of_ok {x : ExceptT ε (StateM σ) α} {a : α} (h : x.run.run s = (.ok a, t))
    (f : α → ExceptT ε (StateM σ) β) : (x >>= f).run.run s = (f a).run.run t := by
  have hbind : (x >>= f).run.run s =
      match x.run.run s with
      | (.ok a, t) => (f a).run.run t
      | (.error e, t) => (.error e, t) := by
    rw [ExceptT.run_bind, StateT.run_bind]
    generalize x.run.run s = outcome
    obtain ⟨result, t⟩ := outcome
    cases result <;> rfl
  rw [hbind, h]

end

namespace Elements

/-- An expansion that writes to a table in place: first to the free names, then to the stack. -/
def expandInPlace (archs : Architectures) (name : String) :
    ExceptT LoadError (StateM Elements) (List String) := do
  let elements ← get
  match elements.find? name with
  | none => pure []
  | some stack =>
    let embeds ← Embed.readAll stack.data
    let made ← Stack.elementsOf archs elements stack (embeds.map Embed.name) embeds []
    made.forM fun element => modify (Roster.put · element)
    modify fun elements =>
      match elements.find? name with
      | some stack => elements.put (Stack.withEmbeds stack embeds)
      | none => elements
    pure (Named.names made)

theorem forM_put_run (made : List Element) (elements : Elements) :
    (made.forM fun element => modify (Roster.put · element) :
      ExceptT LoadError (StateM Elements) PUnit).run.run elements =
      (.ok ⟨⟩, made.foldl Roster.put elements) := by
  induction made generalizing elements with
  | nil => rfl
  | cons e rest ih => exact ih (elements.put e)

/-- What an expansion in place answers and leaves behind: the same as an expansion, and without a
result the table as it was. -/
theorem expandInPlace_run (archs : Architectures) (elements : Elements) (name : String) :
    (expandInPlace archs name).run.run elements =
      match elements.expandStack archs name with
      | .ok (expanded, names) => (.ok names, expanded)
      | .error err => (.error err, elements) := by
  have hget : ∀ f : Elements → ExceptT LoadError (StateM Elements) (List String),
      (get >>= f).run.run elements = (f elements).run.run elements := fun _ => rfl
  rw [expandInPlace, hget]
  cases hstack : elements.find? name with
  | none =>
    have hexpand : elements.expandStack archs name = .ok (elements, []) := by
      simp only [expandStack, hstack]
    rw [hexpand]
    rfl
  | some stack =>
    dsimp only
    rw [lift_bind_run]
    cases hembeds : Embed.readAll stack.data with
    | error err =>
      have hexpand : elements.expandStack archs name = .error err := by
        simp only [expandStack, hstack, hembeds, bind, Except.bind]
      rw [hexpand]
    | ok embeds =>
      dsimp only
      rw [lift_bind_run]
      cases hmade : Stack.elementsOf archs elements stack (embeds.map Embed.name) embeds [] with
      | error err =>
        have hexpand : elements.expandStack archs name = .error err := by
          simp only [expandStack, hstack, hembeds, hmade, bind, Except.bind]
        rw [hexpand]
      | ok made =>
        have hexpand : elements.expandStack archs name =
            .ok ((made.foldl Roster.put elements).put (Stack.withEmbeds stack embeds),
              Named.names made) := by
          simp only [expandStack, hstack, bind_eq_ok_iff, pure_eq_ok_iff]
          exact ⟨embeds, hembeds, made, hmade, rfl⟩
        -- the names written to first were free, so the stack is still there
        have hkept : (made.foldl Roster.put elements).find? name = some stack := by
          refine (find?_foldl_put fun hmem => ?_).trans hstack
          obtain ⟨e, he, rfl⟩ := List.mem_map.1 hmem
          have hfree := Stack.elementsOf_fresh hmade
            (fun _ hnil => absurd hnil List.not_mem_nil) e he
          exact absurd (hstack.symm.trans hfree) (by simp)
        dsimp only
        rw [bind_run_of_ok (forM_put_run made elements), hexpand]
        change (Except.ok (Named.names made),
          match (made.foldl Roster.put elements).find? name with
          | some stack => (made.foldl Roster.put elements).put (Stack.withEmbeds stack embeds)
          | none => made.foldl Roster.put elements) = _
        rw [hkept]

/-- An expansion either fails, and then leaves the whole table as it was, or it adds the element of
each embed and has the stack depend on it; and it succeeds whenever that can be done. -/
theorem expandStack_all_or_nothing {elements : Elements} {name : String} {stack : Element}
    (archs : Architectures) (known : elements.find? name = some stack) :
    ((∃ err, elements.expandStack archs name = .error err ∧
        (expandInPlace archs name).run.run elements = (.error err, elements)) ∨
      ∃ expanded names, elements.expandStack archs name = .ok (expanded, names) ∧
        (expandInPlace archs name).run.run elements = (.ok names, expanded)) ∧
    (∀ expanded names, elements.expandStack archs name = .ok (expanded, names) ↔
      ∃ embeds made, elements.Expands archs stack embeds made expanded ∧
        names = Named.names made) ∧
    (∀ key, key ≠ Element.embedsKey →
      (stack.data.erase Element.embedsKey).get? key = stack.data.get? key) ∧
    (stack.data.HasDistinctKeys →
      (stack.data.erase Element.embedsKey).get? Element.embedsKey = none) := by
  have hrun := expandInPlace_run archs elements name
  refine ⟨?_, fun expanded names => expandStack_eq_ok_iff known,
    fun key hkey => Node.get?_erase_of_ne hkey stack.data, fun h => Node.get?_erase_self h _⟩
  cases hexpand : elements.expandStack archs name with
  | error err =>
    rw [hexpand] at hrun
    exact .inl ⟨err, rfl, hrun⟩
  | ok result =>
    rw [hexpand] at hrun
    exact .inr ⟨result.1, result.2, rfl, hrun⟩

/-- The document of a stack with two embeds: `one` has a variant of its own, and `two` depends on
`one`. -/
def pairDocument : Node :=
  let place : Provenance := .fileStart "s.bst"
  let text (s : String) : Node := .scalar (.string s) place
  .mapping [("kind", text "stack"), ("embeds", .sequence [
    .mapping [("name", text "one"), ("kind", text "manual"),
      ("variants", .sequence [.mapping [("variant", text "release")] place] place)] place,
    .mapping [("name", text "two"), ("kind", text "manual"),
      ("depends", .sequence [text "one"] place)] place] place)] place

/-- A stack in its variant `release`, which depends on `base`. -/
def pairStack : Element :=
  { Element.bare "s" [.between "s" "base" none] [("debug", []), ("release", [])] with
    filename := "s.bst", kind := "stack", data := pairDocument
    variant := some "release", deps := [.between "s" "base" none] }

def pairTable : Elements := .ofList [pairStack, .bare "base" [] []]

/-- The embeds become elements behind those of the table, and only the first one is in the variant
of the stack. -/
theorem pairTable_expanded : ∃ expanded names embeds made,
    pairTable.expandStack {} "s" = .ok (expanded, names) ∧
      pairTable.Expands {} pairStack embeds made expanded ∧
      expanded.toList.map (fun e => (e.name, e.variant, Named.names e.deps)) =
        [("s", some "release", ["base", "s-one", "s-two"]), ("base", none, []),
          ("s-one", some "release", ["base"]), ("s-two", none, ["s-one", "base"])] := by
  have hcompute : (pairTable.expandStack {} "s").toOption.map (fun result =>
      result.1.toList.map fun e => (e.name, e.variant, Named.names e.deps)) =
      some [("s", some "release", ["base", "s-one", "s-two"]), ("base", none, []),
        ("s-one", some "release", ["base"]), ("s-two", none, ["s-one", "base"])] := by
    decide +kernel
  have hknown : pairTable.find? "s" = some pairStack := rfl
  obtain ⟨-, hexact, -⟩ := expandStack_all_or_nothing {} hknown
  cases hexpand : pairTable.expandStack {} "s" with
  | error err =>
    rw [hexpand] at hcompute
    cases hcompute
  | ok result =>
    rw [hexpand] at hcompute
    obtain ⟨embeds, made, hexpands, -⟩ := (hexact result.1 result.2).1 hexpand
    exact ⟨result.1, result.2, embeds, made, rfl, hexpands, Option.some.inj hcompute⟩

end Elements

end BuildGraph
