import BuildGraph.Proofs.Stack.Acyclic
import Mathlib.Data.List.Nodup
import Mathlib.Data.List.Perm.Basic

/-!
# Expansions in any order

What an expansion puts into a table hangs on its stack alone (`Expansion.IsOf`); of the rest of the
table it only asks that the names it brings in are free. So several expansions succeed together or not
at all, and they give every name the same element whatever their order. The checks between them come
to one look at the table in the end, so they do not see the order either.
-/

namespace BuildGraph

variable {archs : Architectures}

/-- A path is one of another relation if each of its steps is. -/
theorem reflTransGen_of_steps {α : Type} {r s : α → α → Prop} {a b : α}
    (h : Relation.ReflTransGen r a b)
    (hsteps : ∀ x y, Relation.ReflTransGen r a x → r x y → Relation.ReflTransGen r y b → s x y) :
    Relation.ReflTransGen s a b := by
  induction h using Relation.ReflTransGen.head_induction_on with
  | refl => exact .refl
  | @head a c hac hcb ih =>
    exact .head (hsteps a c .refl hac hcb) (ih fun x y hx => hsteps x y (.head hac hx))

/-- An expansion of a stack: the embeds that it declares, and the elements that these become. -/
structure Expansion where
  stack : Element
  embeds : List Embed
  made : List Element

namespace Expansion

/-- Whether an expansion is the one of a name of a table, as far as the stack decides it. -/
structure IsOf (archs : Architectures) (elements : Elements) (name : String) (x : Expansion) :
    Prop where
  stack : elements.find? name = some x.stack
  embedded : Embed.readAll x.stack.data = .ok x.embeds
  made : Stack.elementsOf archs .empty x.stack (x.embeds.map Embed.name) x.embeds [] = .ok x.made

/-- What an expansion puts into a table. -/
def puts (x : Expansion) : List Element :=
  x.made ++ [Stack.withEmbeds x.stack x.embeds]

/-- Whether the names that expansions bring in are free and distinct. -/
structure Fit (elements : Elements) (xs : List Expansion) : Prop where
  fresh : ∀ e ∈ xs.flatMap made, elements.find? e.name = none
  distinct : (Named.names (xs.flatMap made)).Nodup

variable {elements other : Elements} {name n : String} {x y : Expansion} {xs ys : List Expansion}
  {names : List String}

/-- The expansions of names are the same in every table that has the same stacks there. -/
theorem forall₂_congr (hsame : ∀ name ∈ names, elements.find? name = other.find? name)
    (h : List.Forall₂ (IsOf archs elements) names xs) :
    List.Forall₂ (IsOf archs other) names xs := by
  refine ((List.forall₂_and_left _ _).2 ⟨hsame, h⟩).imp fun name x hx => ?_
  exact ⟨hx.1.symm.trans hx.2.stack, hx.2.embedded, hx.2.made⟩

theorem IsOf.nodup (hx : IsOf archs elements name x) : (Named.names x.made).Nodup := by
  have hnil : (Named.names ([] : List Element)).Nodup := List.nodup_nil
  obtain ⟨-, -, -, hdistinct, -⟩ := (Stack.elementsOf_eq_ok_iff hnil).1 hx.made
  exact hdistinct

theorem names_puts (x : Expansion) : Named.names x.puts = Named.names x.made ++ [x.stack.name] :=
  List.map_append

theorem map_name_of_isOf (h : List.Forall₂ (IsOf archs elements) names xs) :
    xs.map (fun x => x.stack.name) = names := by
  induction h with
  | nil => rfl
  | cons hx _ ih =>
    have hname : _ = _ := Named.name_of_find? hx.stack
    exact congrArg₂ List.cons hname ih

theorem Fit.perm (h : Fit elements xs) (hperm : xs.Perm ys) : Fit elements ys := by
  have hmade : (xs.flatMap made).Perm (ys.flatMap made) := hperm.flatMap_right made
  exact ⟨fun e he => h.fresh e (hmade.mem_iff.2 he), (hmade.map _).nodup_iff.1 h.distinct⟩

end Expansion

namespace Stack

/-- What embeds become does not hang on the table, as long as the names are free in it. -/
theorem elementsOf_eq_ok_iff_fresh (elements : Elements) {stack : Element} {siblings : List String}
    {embeds : List Embed} {made : List Element} :
    elementsOf archs elements stack siblings embeds [] = .ok made ↔
      elementsOf archs .empty stack siblings embeds [] = .ok made ∧
        ∀ e ∈ made, elements.find? e.name = none := by
  have hnil : (Named.names ([] : List Element)).Nodup := List.nodup_nil
  simp only [elementsOf_eq_ok_iff hnil, List.nil_append]
  constructor
  · rintro ⟨_, rfl, hfresh, hdistinct, hmakes⟩
    exact ⟨⟨made, rfl, fun _ _ => rfl, hdistinct, hmakes⟩, hfresh⟩
  · rintro ⟨⟨_, rfl, -, hdistinct, hmakes⟩, hfresh⟩
    exact ⟨made, rfl, hfresh, hdistinct, hmakes⟩

end Stack

namespace Elements

variable {elements mid full : Elements} {name n : String} {names names' made : List String}
  {es es' : List Element} {x : Expansion} {xs : List Expansion}

theorem find?_foldl_put_of_mem {e : Element} (distinct : (Named.names es).Nodup) (he : e ∈ es) :
    (es.foldl Roster.put elements).find? (Named.name e) = some e := by
  induction es generalizing elements with
  | nil => cases he
  | cons first rest ih =>
    obtain ⟨hnew, hrest⟩ := List.nodup_cons.1 distinct
    rcases List.mem_cons.1 he with rfl | hlater
    · exact (find?_foldl_put hnew).trans (Roster.find?_put_self rfl)
    · exact ih hrest hlater

theorem find?_foldl_put_eq_none_iff (distinct : (Named.names es).Nodup) :
    (es.foldl Roster.put elements).find? n = none ↔
      n ∉ Named.names es ∧ elements.find? n = none := by
  by_cases hn : n ∈ Named.names es
  · obtain ⟨e, he, rfl⟩ := List.mem_map.1 hn
    simp [find?_foldl_put_of_mem distinct he, hn]
  · rw [find?_foldl_put hn]
    simp [hn]

/-- It does not matter in which order elements of distinct names are put into a table. -/
theorem find?_foldl_put_perm (hperm : es.Perm es') (distinct : (Named.names es).Nodup) :
    (es.foldl Roster.put elements).find? n = (es'.foldl Roster.put elements).find? n := by
  have hnames : (Named.names es).Perm (Named.names es') := hperm.map _
  by_cases hn : n ∈ Named.names es
  · obtain ⟨e, he, rfl⟩ := List.mem_map.1 hn
    exact (find?_foldl_put_of_mem distinct he).trans
      (find?_foldl_put_of_mem (hnames.nodup_iff.1 distinct) (hperm.mem_iff.1 he)).symm
  · rw [find?_foldl_put hn, find?_foldl_put (mt hnames.mem_iff.2 hn)]

/-- An expansion succeeds exactly if the names that it brings in are free. -/
theorem expandStack_eq_ok_iff_puts (known : (elements.find? name).isSome) :
    elements.expandStack archs name = .ok (mid, made) ↔
      ∃ x, Expansion.IsOf archs elements name x ∧ (∀ e ∈ x.made, elements.find? e.name = none) ∧
        mid = x.puts.foldl Roster.put elements ∧ made = Named.names x.made := by
  obtain ⟨stack, hstack⟩ := Option.isSome_iff_exists.1 known
  simp only [expandStack, hstack, bind_eq_ok_iff, pure_eq_ok_iff, Prod.mk.injEq,
    Stack.elementsOf_eq_ok_iff_fresh elements]
  constructor
  · rintro ⟨embeds, hembeds, new, ⟨hnew, hfresh⟩, rfl, rfl⟩
    refine ⟨⟨stack, embeds, new⟩, ⟨hstack, hembeds, hnew⟩, hfresh, ?_, rfl⟩
    rw [Expansion.puts, List.foldl_append]
    rfl
  · rintro ⟨x, hx, hfresh, rfl, rfl⟩
    obtain rfl : stack = x.stack := Option.some.inj (hstack.symm.trans hx.stack)
    refine ⟨x.embeds, hx.embedded, x.made, ⟨hx.made, hfresh⟩, ?_, rfl⟩
    rw [Expansion.puts, List.foldl_append]
    rfl

theorem nodup_names_puts (hx : Expansion.IsOf archs elements name x)
    (hfresh : ∀ e ∈ x.made, elements.find? e.name = none) : (Named.names x.puts).Nodup := by
  rw [Expansion.names_puts, (List.perm_append_singleton _ _).nodup_iff, List.nodup_cons]
  refine ⟨fun hmem => ?_, hx.nodup⟩
  obtain ⟨e, he, hname⟩ := List.mem_map.1 hmem
  have hstack : x.stack.name = name := Named.name_of_find? hx.stack
  have hfree := hfresh e he
  rw [show e.name = name from hname.trans hstack, hx.stack] at hfree
  cases hfree

/-- After an expansion others fit if they did so before, and bring in other names than it. -/
theorem fit_cons_iff (hx : Expansion.IsOf archs elements name x)
    (hfresh : ∀ e ∈ x.made, elements.find? e.name = none) :
    Expansion.Fit elements (x :: xs) ↔ Expansion.Fit (x.puts.foldl Roster.put elements) xs := by
  have hfree : ∀ n, (x.puts.foldl Roster.put elements).find? n = none ↔
      n ∉ Named.names x.made ∧ elements.find? n = none := by
    intro n
    rw [find?_foldl_put_eq_none_iff (nodup_names_puts hx hfresh), Expansion.names_puts,
      List.mem_append, not_or, and_assoc]
    refine and_congr_right fun _ => and_iff_right_of_imp fun hnone hstack => ?_
    obtain rfl : n = name := (List.mem_singleton.1 hstack).trans (Named.name_of_find? hx.stack)
    rw [hx.stack] at hnone
    cases hnone
  have hsplit : Named.names ((x :: xs).flatMap Expansion.made) =
      Named.names x.made ++ Named.names (xs.flatMap Expansion.made) := List.map_append
  constructor
  · rintro ⟨hfresh', hdistinct⟩
    rw [hsplit, List.nodup_append'] at hdistinct
    obtain ⟨-, hrest, hdisjoint⟩ := hdistinct
    refine ⟨fun e he => (hfree _).2 ⟨fun hmem => ?_, hfresh' e ?_⟩, hrest⟩
    · exact hdisjoint hmem (List.mem_map_of_mem he)
    · rw [List.flatMap_cons]
      exact List.mem_append_right _ he
  · rintro ⟨hrest, hdistinct⟩
    refine ⟨fun e he => ?_, ?_⟩
    · rw [List.flatMap_cons] at he
      rcases List.mem_append.1 he with hmade | hlater
      · exact hfresh e hmade
      · exact ((hfree _).1 (hrest e hlater)).2
    · rw [hsplit, List.nodup_append']
      refine ⟨hx.nodup, hdistinct, fun n hn hlater => ?_⟩
      obtain ⟨e, he, rfl⟩ := List.mem_map.1 hlater
      exact ((hfree _).1 (hrest e he)).1 hn

/-- Expansions succeed exactly if the names that they bring in fit, and put in what each of them would
put in alone. -/
theorem expandEach_eq_ok_iff (distinct : names.Nodup)
    (known : ∀ name ∈ names, (elements.find? name).isSome) :
    elements.expandEach archs names = .ok full ↔
      ∃ xs, List.Forall₂ (Expansion.IsOf archs elements) names xs ∧ Expansion.Fit elements xs ∧
        full = (xs.flatMap Expansion.puts).foldl Roster.put elements := by
  induction names generalizing elements with
  | nil =>
    simp only [expandEach, Except.ok.injEq, List.forall₂_nil_left_iff, exists_eq_left]
    have hfit : Expansion.Fit elements [] := ⟨fun _ he => absurd he List.not_mem_nil, List.nodup_nil⟩
    exact ⟨fun h => ⟨hfit, h.symm⟩, fun h => h.2.symm⟩
  | cons name rest ih =>
    obtain ⟨hnew, hrest⟩ := List.nodup_cons.1 distinct
    obtain ⟨hname, hothers⟩ := List.forall_mem_cons.1 known
    -- the stacks that come later are still what they were
    have hlater : ∀ x, Expansion.IsOf archs elements name x →
        (∀ e ∈ x.made, elements.find? e.name = none) → ∀ m ∈ rest,
          (x.puts.foldl Roster.put elements).find? m = elements.find? m := by
      intro x hx hfresh m hm
      refine find?_expandStack (ne_of_mem_of_not_mem hm hnew) (hothers m hm)
        ((expandStack_eq_ok_iff_puts hname).2 ⟨x, hx, hfresh, rfl, rfl⟩)
    simp only [expandEach, bind_eq_ok_iff]
    constructor
    · rintro ⟨⟨mid, made⟩, hstep, h⟩
      obtain ⟨x, hx, hfresh, rfl, -⟩ := (expandStack_eq_ok_iff_puts hname).1 hstep
      obtain ⟨xs, hxs, hfit, rfl⟩ :=
        (ih hrest fun m hm => hlater x hx hfresh m hm ▸ hothers m hm).1 h
      refine ⟨x :: xs, .cons hx (Expansion.forall₂_congr (hlater x hx hfresh) hxs),
        (fit_cons_iff hx hfresh).2 hfit, ?_⟩
      rw [List.flatMap_cons, List.foldl_append]
    · rintro ⟨_, hall, hfit, rfl⟩
      cases hall with
      | @cons _ x _ xs hx hxs =>
        have hfresh : ∀ e ∈ x.made, elements.find? e.name = none :=
          fun e he => hfit.fresh e (List.mem_flatMap.2 ⟨x, List.mem_cons_self, he⟩)
        refine ⟨_, (expandStack_eq_ok_iff_puts hname).2 ⟨x, hx, hfresh, rfl, rfl⟩, ?_⟩
        refine (ih hrest fun m hm => hlater x hx hfresh m hm ▸ hothers m hm).2
          ⟨xs, Expansion.forall₂_congr (fun m hm => (hlater x hx hfresh m hm).symm) hxs,
            (fit_cons_iff hx hfresh).1 hfit, ?_⟩
        rw [List.flatMap_cons, List.foldl_append]

/-- Expansions that succeed in one order succeed in every other one, and give every name the same. -/
theorem expandEach_perm (distinct : names.Nodup)
    (known : ∀ name ∈ names, (elements.find? name).isSome) (hperm : names.Perm names')
    (h : elements.expandEach archs names = .ok full) :
    ∃ full', elements.expandEach archs names' = .ok full' ∧ ∀ n, full.find? n = full'.find? n := by
  obtain ⟨xs, hxs, hfit, rfl⟩ := (expandEach_eq_ok_iff distinct known).1 h
  obtain ⟨ys, hys, hyx⟩ := List.perm_comp_forall₂ hperm.symm hxs
  refine ⟨_, (expandEach_eq_ok_iff (hperm.nodup_iff.1 distinct)
    fun name hname => known name (hperm.mem_iff.2 hname)).2 ⟨ys, hys, hfit.perm hyx.symm, rfl⟩,
    fun n => find?_foldl_put_perm (hyx.symm.flatMap_right _) ?_⟩
  -- what is made is new to the table, and the stacks are not
  have hsplit : (Named.names (xs.flatMap Expansion.puts)).Perm
      (Named.names (xs.flatMap Expansion.made) ++ names) := by
    have hputs := (List.flatMap_append_perm xs Expansion.made
      fun x => [Stack.withEmbeds x.stack x.embeds]).symm.map Named.name
    have hstacks : (xs.flatMap fun x => [Stack.withEmbeds x.stack x.embeds]).map Named.name =
        names := by
      rw [← List.map_eq_flatMap, List.map_map]
      exact Expansion.map_name_of_isOf hxs
    rwa [List.map_append, hstacks] at hputs
  rw [hsplit.nodup_iff, List.nodup_append']
  refine ⟨hfit.distinct, distinct, fun n hmade hn => ?_⟩
  obtain ⟨e, he, rfl⟩ := List.mem_map.1 hmade
  have hsome := known _ hn
  rw [show Named.name e = e.name from rfl, hfit.fresh e he] at hsome
  cases hsome

/-- What no cycle is reached from stays so in an expansion, if no cycle is reached from what it makes. -/
theorem Clear.expandStack (hclear : elements.Clear n)
    (h : elements.expandStack archs name = .ok (mid, made)) (hmade : ∀ k ∈ made, mid.Clear k) :
    mid.Clear n := by
  intro m hreach hcycle
  cases hstack : elements.find? name with
  | none =>
    simp only [Elements.expandStack, hstack, Except.ok.injEq, Prod.mk.injEq] at h
    exact hclear m (h.1 ▸ hreach) (h.1 ▸ hcycle)
  | some stack =>
    obtain ⟨embeds, new, hexpands, rfl⟩ := (expandStack_eq_ok_iff hstack).1 h
    -- the way to the cycle meets nothing that was made, so it was there before
    have hout : ∀ x, mid.Reaches n x → mid.Reaches x m → x ∉ Named.names new :=
      fun x _ hx hmem => hmade x hmem m hx hcycle
    have hold : ∀ x y, mid.Reaches n x → mid.LeadsTo x y → mid.Reaches y m →
        elements.LeadsTo x y := by
      intro x y hx hxy hy
      have hx' := hout x hx (.head hxy hy)
      have hy' := hout y (hx.tail hxy) hy
      rcases hexpands.leadsTo_cases (Named.mem_of_find? hstack) hxy with
        hlead | ⟨-, hnew⟩ | ⟨hnew, -⟩ | ⟨-, -, -, -, -, hnew⟩
      · exact hlead
      · exact absurd hnew hy'
      · exact absurd hnew hx'
      · exact absurd hnew hy'
    obtain ⟨next, hnext, hback⟩ := Relation.TransGen.head'_iff.1 hcycle
    refine hclear m (reflTransGen_of_steps hreach hold) (.head' (hold m next hreach hnext hback) ?_)
    exact reflTransGen_of_steps hback fun x y hx => hold x y ((hreach.tail hnext).trans hx)

theorem expandEach_of_expandAll (h : elements.expandAll archs names = .ok full) :
    elements.expandEach archs names = .ok full := by
  induction names generalizing elements with
  | nil => exact h
  | cons name rest ih =>
    simp only [expandAll, bind_eq_ok_iff] at h
    obtain ⟨⟨mid, made⟩, hstep, _, -, hrest⟩ := h
    simp only [expandEach, bind_eq_ok_iff]
    exact ⟨(mid, made), hstep, ih hrest⟩

/-- What no cycle is reached from stays so if the checks between expansions pass. -/
theorem Clear.expandAll (hclear : elements.Clear n)
    (h : elements.expandAll archs names = .ok full) : full.Clear n := by
  induction names generalizing elements with
  | nil => exact Except.ok.inj h ▸ hclear
  | cons name rest ih =>
    simp only [Elements.expandAll, bind_eq_ok_iff] at h
    obtain ⟨⟨mid, made⟩, hstep, _, hcheck, hrest⟩ := h
    exact ih (hclear.expandStack hstep (clear_of_checkCircular hcheck)) hrest

/-- What an expansion makes has names that were free. -/
theorem find?_of_mem_expanded (h : elements.expandStack archs name = .ok (mid, made))
    (hn : n ∈ made) : elements.find? n = none := by
  cases hstack : elements.find? name with
  | none =>
    simp only [expandStack, hstack, Except.ok.injEq, Prod.mk.injEq] at h
    rw [← h.2] at hn
    cases hn
  | some stack =>
    obtain ⟨embeds, new, hexpands, rfl⟩ := (expandStack_eq_ok_iff hstack).1 h
    obtain ⟨e, he, rfl⟩ := List.mem_map.1 hn
    exact hexpands.fresh e he

/-- The checks between expansions pass exactly if no cycle is reached in the end from what they brought
in. -/
theorem expandAll_eq_ok_iff : elements.expandAll archs names = .ok full ↔
    elements.expandEach archs names = .ok full ∧ ∀ n, elements.find? n = none → full.Clear n := by
  constructor
  · intro h
    refine ⟨expandEach_of_expandAll h, fun n hn => (Clear.expandAll · h) (clear_of_not_mem ?_)⟩
    rw [← Roster.find?_isSome_iff, hn]
    exact Bool.false_ne_true
  · rintro ⟨h, hclear⟩
    induction names generalizing elements with
    | nil => exact h
    | cons name rest ih =>
      simp only [expandEach, bind_eq_ok_iff] at h
      obtain ⟨⟨mid, made⟩, hstep, h⟩ := h
      have hmono : mid.LeadsTo ≤ full.LeadsTo := fun _ _ => expandEach_leadsTo_mono h
      have hcheck : mid.checkCircular made = .ok () := by
        refine checkCircular_of_clear fun k hk m hreach hcycle => ?_
        exact hclear k (find?_of_mem_expanded hstep hk) m (Relation.ReflTransGen.mono hmono _ _ hreach)
          (Relation.TransGen.mono hmono _ _ hcycle)
      simp only [expandAll, bind_eq_ok_iff]
      refine ⟨(mid, made), hstep, (), hcheck, ih h fun n hn => hclear n ?_⟩
      have hkept := mt (expandStack_find?_isSome (n := n) hstep)
      simpa [hn] using hkept

/-- Whether two ways to come to a table succeed together, and then give every name the same element. -/
def SameTables (x y : Except LoadError Elements) : Prop :=
  ((∃ full, x = .ok full) ↔ ∃ full, y = .ok full) ∧
    ∀ full full', x = .ok full → y = .ok full' → ∀ n, full.find? n = full'.find? n

theorem sameTables_of_forth_and_back {x y : Except LoadError Elements}
    (forth : ∀ full, x = .ok full → ∃ full', y = .ok full' ∧ ∀ n, full.find? n = full'.find? n)
    (back : ∀ full, y = .ok full → ∃ full', x = .ok full') : SameTables x y := by
  refine ⟨⟨?_, fun ⟨full, h⟩ => back full h⟩, ?_⟩
  · rintro ⟨full, h⟩
    obtain ⟨full', h', -⟩ := forth full h
    exact ⟨full', h'⟩
  · intro full full' h h'
    obtain ⟨found, hfound, hsame⟩ := forth full h
    obtain rfl : found = full' := Except.ok.inj (hfound.symm.trans h')
    exact hsame

theorem leadsTo_congr {other : Elements} (h : ∀ n, elements.find? n = other.find? n) :
    elements.LeadsTo = other.LeadsTo := by
  funext m n
  rw [LeadsTo, LeadsTo, next, next, depsOf, depsOf, h m]

theorem expandAll_perm (distinct : names.Nodup)
    (known : ∀ name ∈ names, (elements.find? name).isSome) (hperm : names.Perm names')
    (h : elements.expandAll archs names = .ok full) :
    ∃ full', elements.expandAll archs names' = .ok full' ∧ ∀ n, full.find? n = full'.find? n := by
  obtain ⟨heach, hclear⟩ := expandAll_eq_ok_iff.1 h
  obtain ⟨full', heach', hsame⟩ := expandEach_perm distinct known hperm heach
  refine ⟨full', expandAll_eq_ok_iff.2 ⟨heach', fun n hn => ?_⟩, hsame⟩
  have hclear := hclear n hn
  rwa [Clear, Reaches, Follows, leadsTo_congr hsame] at hclear

theorem sameTables_of_perm (distinct : names.Nodup)
    (known : ∀ name ∈ names, (elements.find? name).isSome) (hperm : names.Perm names') :
    SameTables (elements.expandAll archs names) (elements.expandAll archs names') := by
  refine sameTables_of_forth_and_back (fun full => expandAll_perm distinct known hperm)
    fun full h => ?_
  obtain ⟨full', h', -⟩ := expandAll_perm (hperm.nodup_iff.1 distinct)
    (fun name hname => known name (hperm.mem_iff.2 hname)) hperm.symm h
  exact ⟨full', h'⟩

/-- Stacks expand independently: two elements of a table are expanded one after the other in either
order with the same result, so are any number of them with the checks between, and so in particular
are the stacks that are reached from a target. -/
theorem expandStacks_anyOrder (archs : Architectures) (elements : Elements) :
    (∀ a b, a ≠ b → (elements.find? a).isSome → (elements.find? b).isSome →
      SameTables (elements.expandEach archs [a, b]) (elements.expandEach archs [b, a])) ∧
    (∀ names names' : List String, names.Nodup →
      (∀ name ∈ names, (elements.find? name).isSome) → names.Perm names' →
      SameTables (elements.expandAll archs names) (elements.expandAll archs names')) ∧
    ∀ target names, ((elements.reachable target).filter elements.isStack).Perm names →
      SameTables (elements.expandStacks archs target) (elements.expandAll archs names) := by
  refine ⟨?_, fun names names' => sameTables_of_perm, fun target names hperm => ?_⟩
  · intro a b hne ha hb
    have hforth : ∀ a b, a ≠ b → (elements.find? a).isSome → (elements.find? b).isSome →
        ∀ full, elements.expandEach archs [a, b] = .ok full →
          ∃ full', elements.expandEach archs [b, a] = .ok full' ∧
            ∀ n, full.find? n = full'.find? n := by
      intro a b hne ha hb full h
      refine expandEach_perm (by simpa using hne) ?_ (.swap b a []) h
      exact List.forall_mem_cons.2 ⟨ha, List.forall_mem_singleton.2 hb⟩
    refine sameTables_of_forth_and_back (hforth a b hne ha hb) fun full h => ?_
    obtain ⟨full', h', -⟩ := hforth b a hne.symm hb ha full h
    exact ⟨full', h'⟩
  · exact sameTables_of_perm ((nodup_reachable target).filter _)
      (fun name => isSome_of_mem_stacks) hperm

/-- A second stack, which depends on the first one and has an embed of the same name as that one. -/
def outerStack : Element :=
  let place : Provenance := .fileStart "r.bst"
  let text (s : String) : Node := .scalar (.string s) place
  { Element.bare "r" [.between "r" "s" none] [] with
    filename := "r.bst", kind := "stack"
    data := .mapping [("kind", text "stack"), ("embeds", .sequence [
      .mapping [("name", text "one"), ("kind", text "manual")] place] place)] place
    deps := [.between "r" "s" none] }

def nestedStacks : Elements := .ofList [outerStack, pairStack, .bare "base" [] []]

/-- The elements come in another order, but they are the same. -/
theorem nestedStacks_anyOrder : ∃ full full',
    nestedStacks.expandStacks {} "r" = .ok full ∧
      nestedStacks.expandAll {} ["s", "r"] = .ok full' ∧
      full.names = ["r", "s", "base", "r-one", "s-one", "s-two"] ∧
      full'.names = ["r", "s", "base", "s-one", "s-two", "r-one"] ∧
      (∀ n, full.find? n = full'.find? n) ∧
      SameTables (nestedStacks.expandEach {} ["r", "s"])
        (nestedStacks.expandEach {} ["s", "r"]) := by
  obtain ⟨htwo, -, hwalk⟩ := expandStacks_anyOrder {} nestedStacks
  have hstacks : (nestedStacks.reachable "r").filter nestedStacks.isStack = ["r", "s"] := by decide +kernel
  have hsame := hwalk "r" ["s", "r"] (hstacks ▸ .swap "s" "r" [])
  have hfirst : (nestedStacks.expandStacks {} "r").toOption.map Roster.names =
      some ["r", "s", "base", "r-one", "s-one", "s-two"] := by
    decide +kernel
  have hsecond : (nestedStacks.expandAll {} ["s", "r"]).toOption.map Roster.names =
      some ["r", "s", "base", "s-one", "s-two", "r-one"] := by
    decide +kernel
  obtain ⟨full, hfull, hnames⟩ := Option.map_eq_some_iff.1 hfirst
  obtain ⟨full', hfull', hnames'⟩ := Option.map_eq_some_iff.1 hsecond
  rw [toOption_eq_some_iff] at hfull hfull'
  exact ⟨full, full', hfull, hfull', hnames, hnames', hsame.2 full full' hfull hfull',
    htwo "r" "s" (by decide) rfl rfl⟩

end Elements

end BuildGraph
