import BuildGraph.Proofs.Stack.Depends
import Mathlib.Data.List.Forall2

/-!
# What an expansion makes

An expansion adds one element for each embed, under a name that was free, and gives the stack a
dependency on each of them. It succeeds exactly if there is such a table (`Elements.Expands`).
-/

namespace BuildGraph

variable {archs : Architectures}

namespace Stack

/-- What the element `owner` gets from its stack if it has the dependencies `own`: those of the
stack on what none of `own` is on, as its own. Of dependencies on one name it gets the first. -/
def inherited (stack : Element) (owner : String) (own : List Dependency) : List Dependency :=
  ((stack.deps.filter fun dep => !(Named.names own).contains dep.name).eraseDupsBy
    fun a b => a.name == b.name).map fun dep => { dep with owner }

end Stack

/-- Whether an element is what an embed of a stack becomes, where `declared` is what the document of
the embed declares. -/
structure Embed.Becomes (stack : Element) (siblings : List String) (embed : Embed)
    (declared e : Element) : Prop where
  name : e.name = stack.name ++ "-" ++ embed.name
  filename : e.filename = stack.filename
  kind : e.kind = declared.kind
  /-- The embed declares no variant that the stack does not declare. -/
  known : ∀ v ∈ declared.variants, (stack.variant? v.name).isSome
  /-- The embed depends on nothing but embeds of the stack. -/
  siblings : ∀ dep ∈ declared.declaredDeps, dep.name ∈ siblings
  chosen : ∀ v, stack.variant = some v → declared.Declares (some v) → e.variant = some v
  unchosen : (∀ v, stack.variant = some v → ¬declared.Declares (some v)) → e.variant = none
  data : declared.dataIn e.variant = .ok e.data
  baseDeps : e.baseDeps = declared.baseDeps.map (Stack.qualify stack)
  variants : e.variants =
    declared.variants.map fun v => { v with deps := v.deps.map (Stack.qualify stack) }
  /-- The siblings that it depends on in its variant, under their full names, and after them what it
  gets from the stack. -/
  deps : ∃ own, own = (declared.depsFor e.variant).map (fun dep =>
      { dep with name := stack.name ++ "-" ++ dep.name }) ∧
    e.deps = own ++ Stack.inherited stack e.name own

/-- Whether an element is the one that is made of an embed of a stack. -/
def Embed.Makes (archs : Architectures) (stack : Element) (siblings : List String) (embed : Embed)
    (e : Element) : Prop :=
  ∃ declared, Element.ofDocument archs .stack (Embed.fullName stack embed.name) stack.filename
    embed.data = .ok declared ∧ embed.Becomes stack siblings declared e

theorem Embed.Makes.name {stack e : Element} {siblings : List String} {embed : Embed}
    (h : embed.Makes archs stack siblings e) : e.name = Embed.fullName stack embed.name := by
  obtain ⟨declared, -, hbecomes⟩ := h
  exact hbecomes.name

/-- Whether a table is what becomes of another one when the elements `made` of the embeds of a stack
are added to it. -/
structure Elements.Expands (archs : Architectures) (elements : Elements) (stack : Element)
    (embeds : List Embed) (made : List Element) (expanded : Elements) : Prop where
  embedded : Embed.readAll stack.data = .ok embeds
  makes : List.Forall₂ (Embed.Makes archs stack (embeds.map Embed.name)) embeds made
  fresh : ∀ e ∈ made, elements.find? e.name = none
  distinct : (Named.names made).Nodup
  /-- The stack depends on its embeds after what it depended on before; nothing else changes, and
  the elements of the embeds come last. -/
  table : expanded.toList = elements.toList.map (fun e => if e.name = stack.name then
      { stack with
        data := stack.data.erase Element.embedsKey
        deps := stack.deps ++ embeds.map fun embed =>
          { owner := stack.name, name := stack.name ++ "-" ++ embed.name, variant := stack.variant
            filename := none, type := none, place := embed.place } }
    else e) ++ made

namespace Stack

variable {elements : Elements} {stack e : Element} {siblings : List String} {made : List Element}
  {embed : Embed}

theorem fullName_inj {a b : String} : Embed.fullName stack a = Embed.fullName stack b ↔ a = b :=
  String.append_right_inj _

theorem inherit_eq (stack e : Element) :
    inherit stack e = { e with deps := e.deps ++ inherited stack e.name e.deps } := by
  obtain ⟨name, filename, kind, data, baseDeps, variants, variant, own⟩ := e
  rw [inherit, inherited, Element.mk.injEq]
  refine ⟨rfl, rfl, rfl, rfl, rfl, rfl, rfl, ?_⟩
  dsimp only
  generalize stack.deps = new
  induction new generalizing own with
  | nil => simp
  | cons dep rest ih =>
    by_cases hdep : (Named.names own).contains dep.name = true
    · rw [List.foldl_cons, if_pos hdep, ih, List.filter_cons_of_neg (by simpa using hdep)]
    · -- the new dependency keeps later ones of its name away
      have hfilter : rest.filter (fun d =>
          !(Named.names (own ++ [{ dep with owner := name }])).contains d.name) =
          (rest.filter fun d => !(Named.names own).contains d.name).filter
            fun d => decide ((d.name == dep.name) = false) := by
        rw [List.filter_filter]
        refine List.filter_congr fun d _ => ?_
        simp [Named.names, Named.name, Bool.and_comm]
      rw [List.foldl_cons, if_neg hdep, ih, hfilter, List.filter_cons_of_pos (by simpa using hdep),
        List.eraseDupsBy_cons, List.map_cons, List.append_assoc, List.singleton_append]

theorem variant?_qualifyAll (stack e : Element) (v : String) :
    (qualifyAll stack e).variant? v =
      (e.variant? v).map fun v => { v with deps := v.deps.map (qualify stack) } := by
  simp only [Element.variant?, qualifyAll, Named.find?, List.find?_map]
  rfl

theorem put_map_qualify (stack : Element) (dep : Dependency) (deps : List Dependency) :
    Named.put (qualify stack dep) (deps.map (qualify stack)) =
      (Named.put dep deps).map (qualify stack) := by
  induction deps with
  | nil => rfl
  | cons d rest ih =>
    have hname : Named.name (qualify stack d) = Named.name (qualify stack dep) ↔
        Named.name d = Named.name dep := fullName_inj
    by_cases h : Named.name d = Named.name dep
    · simp only [List.map_cons, Named.put, if_pos h, if_pos (hname.2 h)]
    · simp only [List.map_cons, Named.put, if_neg h, if_neg (mt hname.1 h), ih]

/-- Renaming the dependencies of an element does not change which of them are in effect. -/
theorem depsFor_qualifyAll (stack e : Element) (variant : Option String) :
    (qualifyAll stack e).depsFor variant = (e.depsFor variant).map (qualify stack) := by
  have hfold : ∀ new deps : List Dependency,
      (new.map (qualify stack)).foldl (fun deps dep => Named.put dep deps)
          (deps.map (qualify stack)) =
        (new.foldl (fun deps dep => Named.put dep deps) deps).map (qualify stack) := by
    intro new
    induction new with
    | nil => exact fun _ => rfl
    | cons dep rest ih =>
      intro deps
      rw [List.map_cons, List.foldl_cons, List.foldl_cons, put_map_qualify, ih]
  have hfound : variant.bind (qualifyAll stack e).variant? =
      (variant.bind e.variant?).map fun v => { v with deps := v.deps.map (qualify stack) } := by
    cases variant with
    | none => rfl
    | some v => exact variant?_qualifyAll stack e v
  rw [Element.depsFor, Element.depsFor, hfound]
  cases variant.bind e.variant? with
  | none => rfl
  | some v => exact hfold v.deps e.baseDeps

theorem dataIn_qualifyAll (stack e : Element) (variant : Option String) :
    (qualifyAll stack e).dataIn variant = e.dataIn variant := by
  have hfound : variant.bind (qualifyAll stack e).variant? =
      (variant.bind e.variant?).map fun v => { v with deps := v.deps.map (qualify stack) } := by
    cases variant with
    | none => rfl
    | some v => exact variant?_qualifyAll stack e v
  rw [Element.dataIn, Element.dataIn, hfound]
  cases variant.bind e.variant? <;> rfl

theorem checkName_eq_ok_iff : checkName elements stack made embed = .ok () ↔
    elements.find? (Embed.fullName stack embed.name) = none ∧
      Embed.fullName stack embed.name ∉ Named.names made := by
  simp only [checkName]
  cases elements.find? (Embed.fullName stack embed.name) with
  | some existing => simp
  | none => simp

theorem checkVariants_eq_ok_iff : checkVariants stack embed e = .ok () ↔
    ∀ v ∈ e.variants, (stack.variant? v.name).isSome := by
  rw [checkVariants]
  split
  · next v hv =>
    have hunknown := List.find?_some hv
    simp only [reduceCtorEq, false_iff]
    intro h
    have hknown := h v (List.mem_of_find?_eq_some hv)
    simp_all
  · next hnone => simpa [Option.isSome_iff_ne_none] using hnone

/-- The variant of an embed is that of its stack where it is declared. -/
theorem variant_iff (stack declared e : Element) :
    e.variant = variantFor stack (qualifyAll stack declared) ↔
      (∀ v, stack.variant = some v → declared.Declares (some v) → e.variant = some v) ∧
        ((∀ v, stack.variant = some v → ¬declared.Declares (some v)) → e.variant = none) := by
  have hdeclares : ∀ v, ((qualifyAll stack declared).variant? v).isSome = true ↔
      declared.Declares (some v) := by
    intro v
    rw [variant?_qualifyAll, Option.isSome_map]
    exact Iff.rfl
  rw [variantFor]
  cases hv : stack.variant with
  | none => simp
  | some v =>
    by_cases hd : declared.Declares (some v)
    · simp [Option.filter, (hdeclares v).2 hd, hd]
    · simp [Option.filter, mt (hdeclares v).1 hd, hd]

theorem elementOf_becomes (h : elementOf archs elements stack siblings made embed = .ok e) :
    elements.find? e.name = none ∧ e.name ∉ Named.names made ∧
      embed.Makes archs stack siblings e := by
  simp only [elementOf, bind_eq_ok_iff, map_eq_ok_iff] at h
  obtain ⟨_, hname, declared, hread, _, hvariants, _, hsiblings, chosen, hchosen, rfl⟩ := h
  obtain ⟨hfree, hnew⟩ := checkName_eq_ok_iff.1 hname
  obtain ⟨data, hdata, rfl⟩ := Element.choose_eq_ok_iff.1 hchosen
  rw [dataIn_qualifyAll] at hdata
  have hnamed : declared.name = Embed.fullName stack embed.name := Element.ofDocument_name hread
  have hfilename : declared.filename = stack.filename := Element.ofDocument_filename hread
  have hvariant := (variant_iff stack declared
    { declared with variant := variantFor stack (qualifyAll stack declared) }).1 rfl
  refine ⟨hnamed ▸ hfree, hnamed ▸ hnew, declared, hread, {
    name := hnamed
    filename := hfilename
    kind := rfl
    known := checkVariants_eq_ok_iff.1 hvariants
    siblings := checkSiblings_eq_ok_iff.1 hsiblings
    chosen := hvariant.1
    unchosen := hvariant.2
    data := hdata
    baseDeps := rfl
    variants := rfl
    deps := ⟨_, rfl, ?_⟩ }⟩
  rw [inherit_eq, depsFor_qualifyAll]
  rfl

/-- What an embed becomes is determined by what its document declares. -/
theorem eq_of_becomes {declared : Element}
    (hnamed : declared.name = Embed.fullName stack embed.name)
    (hfilename : declared.filename = stack.filename)
    (h : embed.Becomes stack siblings declared e) :
    inherit stack { qualifyAll stack declared with
      data := e.data, variant := e.variant
      deps := (qualifyAll stack declared).depsFor e.variant } = e := by
  have hname : declared.name = e.name := hnamed.trans h.name.symm
  obtain ⟨_, rfl, hdeps⟩ := h.deps
  have hown : (declared.depsFor e.variant).map (fun dep =>
      { dep with name := stack.name ++ "-" ++ dep.name }) =
      (qualifyAll stack declared).depsFor e.variant := (depsFor_qualifyAll stack declared _).symm
  rw [hown, ← hname] at hdeps
  rw [inherit_eq]
  obtain ⟨name, filename, kind, data, baseDeps, variants, variant, deps⟩ := e
  rw [Element.mk.injEq]
  exact ⟨hname, hfilename.trans h.filename.symm, h.kind.symm, rfl, h.baseDeps.symm,
    h.variants.symm, rfl, hdeps.symm⟩

/-- The element of an embed has a name that is free, and is what the embed becomes. -/
theorem elementOf_eq_ok_iff : elementOf archs elements stack siblings made embed = .ok e ↔
    elements.find? e.name = none ∧ e.name ∉ Named.names made ∧
      embed.Makes archs stack siblings e := by
  refine ⟨elementOf_becomes, ?_⟩
  rintro ⟨hfree, hnew, declared, hread, h⟩
  simp only [elementOf, bind_eq_ok_iff, map_eq_ok_iff]
  have hnamed : e.name = Embed.fullName stack embed.name := h.name
  have hvariant := (variant_iff stack declared e).2 ⟨h.chosen, h.unchosen⟩
  refine ⟨(), checkName_eq_ok_iff.2 ⟨hnamed ▸ hfree, hnamed ▸ hnew⟩, declared, hread, (),
    checkVariants_eq_ok_iff.2 h.known, (), checkSiblings_eq_ok_iff.2 h.siblings, _,
    Element.choose_eq_ok_iff.2 ⟨e.data, ?_, rfl⟩, ?_⟩
  · rw [← hvariant, dataIn_qualifyAll, h.data]
  · rw [← hvariant]
    exact eq_of_becomes (Element.ofDocument_name hread) (Element.ofDocument_filename hread) h

/-- The elements of embeds have names that are free and distinct, and each is what its embed
becomes. -/
theorem elementsOf_eq_ok_iff {embeds : List Embed} {before : List Element}
    (hbefore : (Named.names before).Nodup) :
    elementsOf archs elements stack siblings embeds before = .ok made ↔
      ∃ new, made = before ++ new ∧ (∀ e ∈ new, elements.find? e.name = none) ∧
        (Named.names made).Nodup ∧
        List.Forall₂ (Embed.Makes archs stack siblings) embeds new := by
  induction embeds generalizing before with
  | nil =>
    rw [elementsOf, Except.ok.injEq]
    constructor
    · rintro rfl
      exact ⟨[], by simp [hbefore]⟩
    · rintro ⟨new, rfl, -, -, hnew⟩
      cases hnew
      rw [List.append_nil]
  | cons embed rest ih =>
    have happend : ∀ e : Element, (Named.names (before ++ [e])).Nodup ↔
        e.name ∉ Named.names before := by
      intro e
      rw [Named.names, List.map_append, List.map_singleton,
        (List.perm_append_singleton _ _).nodup_iff, List.nodup_cons]
      exact and_iff_left hbefore
    simp only [elementsOf, bind_eq_ok_iff, elementOf_eq_ok_iff]
    constructor
    · rintro ⟨e, ⟨hfree, hnew, hbecomes⟩, hrest⟩
      obtain ⟨new, rfl, hfrees, hdistinct, hnews⟩ := (ih ((happend e).2 hnew)).1 hrest
      exact ⟨e :: new, by simp, List.forall_mem_cons.2 ⟨hfree, hfrees⟩, hdistinct,
        .cons hbecomes hnews⟩
    · rintro ⟨_, rfl, hfrees, hdistinct, hnews⟩
      cases hnews with
      | @cons _ e _ new hbecomes hnews =>
        obtain ⟨hfree, hfrees⟩ := List.forall_mem_cons.1 hfrees
        rw [List.append_cons] at hdistinct
        have hsplit : Named.names (before ++ [e] ++ new) =
            Named.names (before ++ [e]) ++ Named.names new := List.map_append
        have hfirst : (Named.names (before ++ [e])).Nodup :=
          (List.nodup_append.1 (hsplit ▸ hdistinct)).1
        exact ⟨e, ⟨hfree, (happend e).1 hfirst, hbecomes⟩,
          (ih hfirst).2 ⟨new, by simp, hfrees, by simpa using hdistinct, hnews⟩⟩

end Stack

namespace Elements

variable {elements expanded : Elements} {stack : Element} {embeds : List Embed}
  {made : List Element}

theorem toList_foldl_put (hfresh : ∀ e ∈ made, elements.find? e.name = none)
    (hdistinct : (Named.names made).Nodup) :
    (made.foldl Roster.put elements).toList = elements.toList ++ made := by
  induction made generalizing elements with
  | nil => simp
  | cons e rest ih =>
    obtain ⟨hfree, hfrees⟩ := List.forall_mem_cons.1 hfresh
    obtain ⟨hnew, hrest⟩ := List.nodup_cons.1 hdistinct
    have hput : (elements.put e).toList = elements.toList ++ [e] := Roster.toList_put_of_free hfree
    rw [List.foldl_cons, ih _ hrest, hput, List.append_assoc, List.singleton_append]
    intro d hd
    have hne : e.name ≠ d.name := fun heq =>
      hnew (List.mem_map.2 ⟨d, hd, heq.symm⟩)
    exact (Roster.find?_put_of_ne hne).trans (hfrees d hd)

/-- The table that an expansion gives: the stack stays where it is, and the elements of its embeds
stand at the end. -/
theorem toList_put_withEmbeds {name : String} (hstack : elements.find? name = some stack)
    (hfresh : ∀ e ∈ made, elements.find? e.name = none) (hdistinct : (Named.names made).Nodup) :
    ((made.foldl Roster.put elements).put (Stack.withEmbeds stack embeds)).toList =
      elements.toList.map (fun e =>
        if e.name = stack.name then Stack.withEmbeds stack embeds else e) ++ made := by
  have hlist := toList_foldl_put hfresh hdistinct
  have hknown : stack.name ∈ (made.foldl Roster.put elements).names := by
    have hold : stack ∈ elements.toList := Named.mem_of_find? hstack
    exact List.mem_map.2 ⟨stack, hlist ▸ List.mem_append_left _ hold, rfl⟩
  have hname : stack.name = name := Named.name_of_find? hstack
  have hothers : made.map (fun e =>
      if e.name = stack.name then Stack.withEmbeds stack embeds else e) = made := by
    refine (List.map_congr_left fun e he => ?_).trans (List.map_id made)
    have hne : e.name ≠ stack.name := by
      intro heq
      rw [hname] at heq
      exact absurd (hstack.symm.trans (heq ▸ hfresh e he)) (by simp)
    rw [if_neg hne, id]
  have hput := Roster.toList_put_of_mem (x := Stack.withEmbeds stack embeds) hknown
  rw [hput, hlist, List.map_append]
  exact congrArg _ hothers

/-- An expansion succeeds exactly if each embed becomes an element under a name that is free. -/
theorem expandStack_eq_ok_iff {name : String} {names : List String}
    (hstack : elements.find? name = some stack) :
    elements.expandStack archs name = .ok (expanded, names) ↔
      ∃ embeds made, elements.Expands archs stack embeds made expanded ∧
        names = Named.names made := by
  have hnil : (Named.names ([] : List Element)).Nodup := List.nodup_nil
  simp only [expandStack, hstack, bind_eq_ok_iff, pure_eq_ok_iff, Prod.mk.injEq,
    Stack.elementsOf_eq_ok_iff hnil, List.nil_append]
  constructor
  · rintro ⟨embeds, hembeds, made, ⟨_, rfl, hfresh, hdistinct, hmakes⟩, rfl, rfl⟩
    exact ⟨embeds, made, ⟨hembeds, hmakes, hfresh, hdistinct,
      toList_put_withEmbeds hstack hfresh hdistinct⟩, rfl⟩
  · rintro ⟨embeds, made, h, rfl⟩
    refine ⟨embeds, h.embedded, made, ⟨made, rfl, h.fresh, h.distinct, h.makes⟩, ?_, rfl⟩
    exact Roster.eq_of_toList_eq
      ((toList_put_withEmbeds hstack h.fresh h.distinct).trans h.table.symm)

namespace Expands

theorem exists_made (h : elements.Expands archs stack embeds made expanded) {embed : Embed}
    (hembed : embed ∈ embeds) :
    ∃ e ∈ made, embed.Makes archs stack (embeds.map Embed.name) e :=
  exists_of_forall₂ h.makes hembed

theorem exists_embed (h : elements.Expands archs stack embeds made expanded) {e : Element}
    (he : e ∈ made) :
    ∃ embed ∈ embeds, embed.Makes archs stack (embeds.map Embed.name) e := by
  have hmakes : List.Forall₂ (flip (Embed.Makes archs stack (embeds.map Embed.name))) made embeds :=
    .flip h.makes
  exact exists_of_forall₂ hmakes he

end Expands

/-- An expansion leaves the other names of the table what they were. -/
theorem find?_expandStack {name n : String} {names : List String} (hne : n ≠ name)
    (known : (elements.find? n).isSome)
    (h : elements.expandStack archs name = .ok (expanded, names)) :
    expanded.find? n = elements.find? n := by
  obtain ⟨e, he⟩ := Option.isSome_iff_exists.1 known
  exact (expandStack_find?_of_ne hne he h).trans he.symm

/-- Everything in an expanded table has a name of the table before, or is made of an embed. -/
theorem find?_cases_of_expandStack {name : String} {names : List String} {e : Element} {n : String}
    (hstack : elements.find? name = some stack)
    (h : elements.expandStack archs name = .ok (expanded, names))
    (he : expanded.find? n = some e) :
    (elements.find? n).isSome ∨ ∃ embeds, Embed.readAll stack.data = .ok embeds ∧
      ∃ embed ∈ embeds, embed.Makes archs stack (embeds.map Embed.name) e := by
  obtain ⟨embeds, made, hexpands, -⟩ := (expandStack_eq_ok_iff hstack).1 h
  have hmem : e ∈ expanded.toList := Named.mem_of_find? he
  obtain rfl : e.name = n := Named.name_of_find? he
  rw [hexpands.table] at hmem
  rcases List.mem_append.1 hmem with hold | hmade
  · obtain ⟨d, hd, rfl⟩ := List.mem_map.1 hold
    have hsome : (elements.find? d.name).isSome :=
      Roster.find?_isSome_iff.2 (List.mem_map_of_mem hd)
    refine .inl ?_
    split
    · next hname => exact hname ▸ hsome
    · exact hsome
  · obtain ⟨embed, hembed, hmakes⟩ := hexpands.exists_embed hmade
    exact .inr ⟨embeds, hexpands.embedded, embed, hembed, hmakes⟩

/-- Everything in a table whose stacks are expanded has a name of the table before, or is made of an
embed of one of the stacks. -/
theorem find?_cases_of_expandAll {names : List String} {e : Element} {n : String}
    (distinct : names.Nodup) (known : ∀ name ∈ names, (elements.find? name).isSome)
    (h : elements.expandAll archs names = .ok expanded) (he : expanded.find? n = some e) :
    (elements.find? n).isSome ∨ ∃ name ∈ names, ∃ stack, elements.find? name = some stack ∧
      ∃ embeds, Embed.readAll stack.data = .ok embeds ∧
        ∃ embed ∈ embeds, embed.Makes archs stack (embeds.map Embed.name) e := by
  induction names generalizing elements with
  | nil =>
    obtain rfl := Except.ok.inj h
    exact .inl (Option.isSome_iff_exists.2 ⟨e, he⟩)
  | cons name rest ih =>
    obtain ⟨hnew, hrest⟩ := List.nodup_cons.1 distinct
    obtain ⟨hname, hothers⟩ := List.forall_mem_cons.1 known
    obtain ⟨stack, hstack⟩ := Option.isSome_iff_exists.1 hname
    simp only [expandAll, bind_eq_ok_iff] at h
    obtain ⟨⟨mid, made⟩, hstep, _, -, h⟩ := h
    -- the stacks that come later are still what they were
    have hkept : ∀ m ∈ rest, mid.find? m = elements.find? m := fun m hm =>
      find?_expandStack (ne_of_mem_of_not_mem hm hnew) (hothers m hm) hstep
    have hknown : ∀ m ∈ rest, (mid.find? m).isSome := fun m hm => hkept m hm ▸ hothers m hm
    rcases ih hrest hknown h with hmid | ⟨m, hm, stack', hstack', hmade⟩
    · by_cases hn : n ∈ rest
      · exact .inl (hothers n hn)
      · -- what this expansion brought in is left alone by those that follow
        obtain ⟨d, hd⟩ := Option.isSome_iff_exists.1 hmid
        obtain rfl := Option.some.inj ((expandAll_find?_of_not_mem hn hd h).symm.trans he)
        refine (find?_cases_of_expandStack hstack hstep hd).imp_right ?_
        rintro ⟨embeds, hembeds, hmade⟩
        exact ⟨name, List.mem_cons_self, stack, hstack, embeds, hembeds, hmade⟩
    · exact .inr ⟨m, List.mem_cons_of_mem _ hm, stack', hkept m hm ▸ hstack', hmade⟩

/-- What is made of the embeds of a stack stays in the table, whatever is expanded after it. -/
theorem find?_of_expandAll {names : List String} {name : String} (distinct : names.Nodup)
    (known : ∀ name ∈ names, (elements.find? name).isSome) (hname : name ∈ names)
    (hstack : elements.find? name = some stack)
    (h : elements.expandAll archs names = .ok expanded) :
    ∃ embeds, Embed.readAll stack.data = .ok embeds ∧ ∀ embed ∈ embeds, ∃ e,
      expanded.find? (Embed.fullName stack embed.name) = some e ∧
        embed.Makes archs stack (embeds.map Embed.name) e := by
  induction names generalizing elements with
  | nil => cases hname
  | cons first rest ih =>
    obtain ⟨hnew, hrest⟩ := List.nodup_cons.1 distinct
    obtain ⟨-, hothers⟩ := List.forall_mem_cons.1 known
    simp only [expandAll, bind_eq_ok_iff] at h
    obtain ⟨⟨mid, made⟩, hstep, _, -, h⟩ := h
    rcases List.mem_cons.1 hname with rfl | hlater
    -- made now, under names that are free, so of no stack that comes later
    · obtain ⟨embeds, made, hexpands, -⟩ := (expandStack_eq_ok_iff hstack).1 hstep
      refine ⟨embeds, hexpands.embedded, fun embed hembed => ?_⟩
      obtain ⟨e, he, hmakes⟩ := hexpands.exists_made hembed
      have hmid : mid.find? e.name = some e :=
        Roster.find?_name_of_mem (hexpands.table ▸ List.mem_append_right _ he)
      have hfree : e.name ∉ rest := by
        intro hmem
        have hsome := hothers _ hmem
        rw [hexpands.fresh e he] at hsome
        cases hsome
      exact ⟨e, hmakes.name ▸ expandAll_find?_of_not_mem hfree hmid h, hmakes⟩
    · have hkept : ∀ m ∈ rest, mid.find? m = elements.find? m := fun m hm =>
        find?_expandStack (ne_of_mem_of_not_mem hm hnew) (hothers m hm) hstep
      exact ih hrest (fun m hm => hkept m hm ▸ hothers m hm) hlater ((hkept _ hlater).trans hstack) h

theorem exists_of_mem_stacks {target name : String}
    (h : name ∈ (elements.reachable target).filter elements.isStack) :
    ∃ stack, elements.find? name = some stack ∧ stack.isStack = true :=
  (Option.any_eq_true _ _).1 (List.mem_filter.1 h).2

theorem isSome_of_mem_stacks {target name : String}
    (h : name ∈ (elements.reachable target).filter elements.isStack) :
    (elements.find? name).isSome := by
  obtain ⟨stack, hstack, -⟩ := exists_of_mem_stacks h
  exact Option.isSome_iff_exists.2 ⟨stack, hstack⟩

end Elements

end BuildGraph
