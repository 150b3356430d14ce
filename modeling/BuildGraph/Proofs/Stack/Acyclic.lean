import BuildGraph.Proofs.Graph.Cycle
import BuildGraph.Proofs.Stack.InPlace

/-!
# Cycles of expanded tables

The element of an embed leads to where its stack leads to, so a cycle through it runs through the
stack as well. If the stack stands in for the elements of its embeds, a cycle of the expanded table
is one of the table before, or it does not leave the embeds.
-/

namespace BuildGraph

variable {archs : Architectures}

/-- Whether an embed depends on another one of its stack, in the variant that the stack gives it. -/
def Embed.LinksTo (archs : Architectures) (stack : Element) (embed : Embed) (sibling : String) :
    Prop :=
  ∃ declared, Element.ofDocument archs .stack (Embed.fullName stack embed.name) stack.filename
    embed.data = .ok declared ∧
    ∃ dep ∈ declared.depsFor (Stack.variantFor stack declared), dep.name = sibling

/-- The dependencies between the embeds of a stack. -/
def Stack.Links (archs : Architectures) (stack : Element) (a b : String) : Prop :=
  ∃ embeds, Embed.readAll stack.data = .ok embeds ∧
    ∃ embed ∈ embeds, embed.name = a ∧ embed.LinksTo archs stack b

namespace Elements

/-- Whether all resolved dependencies are on elements of the table. -/
def Complete (elements : Elements) : Prop :=
  ∀ m n, elements.LeadsTo m n → n ∈ elements.names

/-- Expands the named stacks one after the other, whatever cycles they bring in. -/
def expandEach (archs : Architectures) (elements : Elements) :
    (names : List String) → Except LoadError Elements
  | [] => .ok elements
  | name :: rest => do
    let (expanded, _) ← elements.expandStack archs name
    expandEach archs expanded rest

end Elements

namespace Stack

variable {stack e : Element} {siblings : List String} {embed : Embed} {n : String}

theorem variantFor_qualifyAll (stack declared : Element) :
    variantFor stack (qualifyAll stack declared) = variantFor stack declared := by
  have hsome : ∀ v, ((qualifyAll stack declared).variant? v).isSome =
      (declared.variant? v).isSome := by
    intro v
    rw [variant?_qualifyAll, Option.isSome_map]
  simp only [variantFor, hsome]

/-- With what it inherits an element depends on all that its stack depends on. -/
theorem exists_mem_inherit : (∃ dep ∈ (inherit stack e).deps, dep.name = n) ↔
    (∃ dep ∈ e.deps, dep.name = n) ∨ ∃ dep ∈ stack.deps, dep.name = n := by
  rw [inherit]
  dsimp only
  generalize stack.deps = new
  generalize e.deps = deps
  induction new generalizing deps with
  | nil => simp
  | cons d rest ih =>
    rw [List.foldl_cons, ih, List.exists_mem_cons_iff]
    by_cases hd : (Named.names deps).contains d.name = true
    · -- a dependency on the name is there already
      obtain ⟨old, hold, hname⟩ := List.mem_map.1 (List.contains_iff_mem.1 hd)
      rw [if_pos hd]
      constructor
      · exact Or.imp_right .inr
      · rintro (hdeps | rfl | hrest)
        · exact .inl hdeps
        · exact .inl ⟨old, hold, hname⟩
        · exact .inr hrest
    · rw [if_neg hd, ← or_assoc]
      refine or_congr_left ?_
      simp only [List.mem_append, List.mem_singleton, or_and_right, exists_or, exists_eq_left]

/-- The element of an embed depends on siblings and on all that the stack depends on. -/
theorem exists_mem_of_makes (h : embed.Makes archs stack siblings e) :
    (∃ dep ∈ e.deps, dep.name = n) ↔
      (∃ b, embed.LinksTo archs stack b ∧ Embed.fullName stack b = n) ∨
        ∃ dep ∈ stack.deps, dep.name = n := by
  obtain ⟨declared, hread, h⟩ := h
  have hvariant : e.variant = variantFor stack declared := by
    rw [← variantFor_qualifyAll]
    exact (variant_iff stack declared e).2 ⟨h.chosen, h.unchosen⟩
  obtain ⟨own, hown, hdeps⟩ := h.deps
  have hinherit : e.deps = (inherit stack { e with deps := own }).deps := by
    rw [inherit_eq, hdeps]
  rw [hinherit, exists_mem_inherit, hown, hvariant]
  refine or_congr_left ?_
  dsimp only
  constructor
  · rintro ⟨_, hdep, rfl⟩
    obtain ⟨dep, hown, rfl⟩ := List.mem_map.1 hdep
    exact ⟨dep.name, ⟨declared, hread, dep, hown, rfl⟩, rfl⟩
  · rintro ⟨_, ⟨declared', hread', dep, hdep, rfl⟩, rfl⟩
    obtain rfl : declared = declared' := Except.ok.inj (hread.symm.trans hread')
    exact ⟨_, List.mem_map_of_mem hdep, rfl⟩

theorem mem_siblings_of_linksTo {b : String} (h : embed.Makes archs stack siblings e)
    (hlink : embed.LinksTo archs stack b) : b ∈ siblings := by
  obtain ⟨declared, hread, h⟩ := h
  obtain ⟨declared', hread', dep, hdep, rfl⟩ := hlink
  obtain rfl : declared = declared' := Except.ok.inj (hread.symm.trans hread')
  exact h.siblings dep (Element.mem_declaredDeps_of_mem_depsFor hdep)

end Stack

namespace Elements

variable {elements expanded : Elements} {stack : Element} {embeds : List Embed}
  {made : List Element} {m n : String}

theorem leadsTo_iff_mem : elements.LeadsTo m n ↔
    ∃ e ∈ elements.toList, e.name = m ∧ ∃ dep ∈ e.deps, dep.name = n := by
  rw [leadsTo_iff]
  constructor
  · rintro ⟨dep, hdep, hn⟩
    cases he : elements.find? m with
    | none =>
      rw [depsOf, he] at hdep
      cases hdep
    | some e =>
      rw [depsOf_eq he] at hdep
      exact ⟨e, Named.mem_of_find? he, Named.name_of_find? he, dep, hdep, hn⟩
  · rintro ⟨e, he, rfl, dep, hdep, hn⟩
    have hfound : elements.find? e.name = some e := Roster.find?_name_of_mem he
    exact ⟨dep, depsOf_eq hfound ▸ hdep, hn⟩

/-- The stack stands in for the elements of its embeds. -/
def standIn (stack : Element) (made : List Element) (n : String) : String :=
  if n ∈ Named.names made then stack.name else n

namespace Expands

theorem mem_names_made (h : elements.Expands archs stack embeds made expanded) :
    n ∈ Named.names made ↔ ∃ embed ∈ embeds, Embed.fullName stack embed.name = n := by
  constructor
  · rintro hn
    obtain ⟨e, he, rfl⟩ := List.mem_map.1 hn
    obtain ⟨embed, hembed, hmakes⟩ := h.exists_embed he
    exact ⟨embed, hembed, hmakes.name.symm⟩
  · rintro ⟨embed, hembed, rfl⟩
    obtain ⟨e, he, hmakes⟩ := h.exists_made hembed
    exact List.mem_map.2 ⟨e, he, hmakes.name⟩

theorem leadsTo_mono (h : elements.Expands archs stack embeds made expanded)
    (hstack : stack ∈ elements.toList) (hn : elements.LeadsTo m n) : expanded.LeadsTo m n := by
  obtain ⟨e, he, rfl, dep, hdep, rfl⟩ := leadsTo_iff_mem.1 hn
  rw [leadsTo_iff_mem, h.table]
  refine ⟨_, List.mem_append_left _ (List.mem_map_of_mem he), ?_⟩
  by_cases hname : e.name = stack.name
  · have hfound : elements.find? e.name = some e := Roster.find?_name_of_mem he
    have hself : elements.find? stack.name = some stack := Roster.find?_name_of_mem hstack
    obtain rfl : e = stack := Option.some.inj (hfound.symm.trans (hname ▸ hself))
    rw [if_pos rfl]
    exact ⟨rfl, dep, List.mem_append_left _ hdep, rfl⟩
  · rw [if_neg hname]
    exact ⟨rfl, dep, hdep, rfl⟩

theorem leadsTo_made (h : elements.Expands archs stack embeds made expanded)
    (hstack : stack ∈ elements.toList) (hn : n ∈ Named.names made) :
    expanded.LeadsTo stack.name n := by
  obtain ⟨embed, hembed, rfl⟩ := h.mem_names_made.1 hn
  rw [leadsTo_iff_mem, h.table]
  refine ⟨_, List.mem_append_left _ (List.mem_map_of_mem hstack), ?_⟩
  rw [if_pos rfl]
  exact ⟨rfl, _, List.mem_append_right _ (List.mem_map_of_mem hembed), rfl⟩

theorem leadsTo_of_links (h : elements.Expands archs stack embeds made expanded) {a b : String}
    (hlink : Stack.Links archs stack a b) :
    expanded.LeadsTo (Embed.fullName stack a) (Embed.fullName stack b) := by
  obtain ⟨embeds', hembeds, embed, hembed, rfl, hlink⟩ := hlink
  obtain rfl : embeds = embeds' := Except.ok.inj (h.embedded.symm.trans hembeds)
  obtain ⟨e, he, hmakes⟩ := h.exists_made hembed
  rw [leadsTo_iff_mem, h.table]
  exact ⟨e, List.mem_append_right _ he, hmakes.name,
    (Stack.exists_mem_of_makes hmakes).2 (.inl ⟨b, hlink, rfl⟩)⟩

/-- The dependencies of an expanded table: those of the table before, those of the stack on what was
made, and those of what was made on siblings and on what the stack depended on before. -/
theorem leadsTo_cases (h : elements.Expands archs stack embeds made expanded)
    (hstack : stack ∈ elements.toList) (hn : expanded.LeadsTo m n) :
    elements.LeadsTo m n ∨ (m = stack.name ∧ n ∈ Named.names made) ∨
      (m ∈ Named.names made ∧ elements.LeadsTo stack.name n) ∨
      ∃ a b, Stack.Links archs stack a b ∧ Embed.fullName stack a = m ∧
        Embed.fullName stack b = n ∧ n ∈ Named.names made := by
  rw [leadsTo_iff_mem, h.table] at hn
  obtain ⟨e, he, rfl, hn⟩ := hn
  rcases List.mem_append.1 he with hold | hmade
  · obtain ⟨d, hd, rfl⟩ := List.mem_map.1 hold
    by_cases hname : d.name = stack.name
    · rw [if_pos hname] at hn ⊢
      obtain ⟨dep, hdep, rfl⟩ := hn
      rcases List.mem_append.1 hdep with hdep | hdep
      · exact .inl (leadsTo_iff_mem.2 ⟨stack, hstack, rfl, dep, hdep, rfl⟩)
      · obtain ⟨embed, hembed, rfl⟩ := List.mem_map.1 hdep
        exact .inr (.inl ⟨rfl, h.mem_names_made.2 ⟨embed, hembed, rfl⟩⟩)
    · rw [if_neg hname] at hn ⊢
      exact .inl (leadsTo_iff_mem.2 ⟨d, hd, rfl, hn⟩)
  · obtain ⟨embed, hembed, hmakes⟩ := h.exists_embed hmade
    rcases (Stack.exists_mem_of_makes hmakes).1 hn with ⟨b, hlink, rfl⟩ | hinherited
    · obtain ⟨sibling, hsibling, rfl⟩ := List.mem_map.1 (Stack.mem_siblings_of_linksTo hmakes hlink)
      exact .inr (.inr (.inr ⟨embed.name, sibling.name,
        ⟨embeds, h.embedded, embed, hembed, rfl, hlink⟩, hmakes.name.symm, rfl,
        h.mem_names_made.2 ⟨sibling, hsibling, rfl⟩⟩))
    · exact .inr (.inr (.inl ⟨List.mem_map_of_mem hmade,
        leadsTo_iff_mem.2 ⟨stack, hstack, rfl, hinherited⟩⟩))

theorem not_mem_made_of_mem_names (h : elements.Expands archs stack embeds made expanded)
    (hn : n ∈ elements.names) : n ∉ Named.names made := by
  intro hmade
  obtain ⟨e, he, rfl⟩ := List.mem_map.1 hmade
  have hfound : (elements.find? e.name).isSome := Roster.find?_isSome_iff.2 hn
  rw [h.fresh e he] at hfound
  cases hfound

/-- With the stack standing in for what was made, a dependency is one of the table before, or it
stays where it is: from the stack to what was made, or between siblings. -/
theorem standIn_leadsTo (h : elements.Expands archs stack embeds made expanded)
    (hstack : stack ∈ elements.toList) (complete : elements.Complete) (hn : expanded.LeadsTo m n) :
    elements.LeadsTo (standIn stack made m) (standIn stack made n) ∨
      standIn stack made m = standIn stack made n ∧ n ∈ Named.names made ∧
        (m ∉ Named.names made ∨
          ∃ a b, Stack.Links archs stack a b ∧ Embed.fullName stack a = m ∧
            Embed.fullName stack b = n) := by
  have hold : ∀ k, k ∈ elements.names → standIn stack made k = k :=
    fun k hk => if_neg (h.not_mem_made_of_mem_names hk)
  have hmade : ∀ k, k ∈ Named.names made → standIn stack made k = stack.name :=
    fun k hk => if_pos hk
  have hname : stack.name ∈ elements.names := List.mem_map_of_mem hstack
  rcases h.leadsTo_cases hstack hn with
    hlead | ⟨rfl, hnew⟩ | ⟨hm, hlead⟩ | ⟨a, b, hlink, rfl, rfl, hb⟩
  · have hm : m ∈ elements.names := by
      obtain ⟨e, he, rfl, -⟩ := leadsTo_iff_mem.1 hlead
      exact List.mem_map_of_mem he
    rw [hold m hm, hold n (complete m n hlead)]
    exact .inl hlead
  · rw [hold _ hname, hmade n hnew]
    exact .inr ⟨rfl, hnew, .inl (h.not_mem_made_of_mem_names hname)⟩
  · rw [hmade m hm, hold n (complete _ n hlead)]
    exact .inl hlead
  · have ha : Embed.fullName stack a ∈ Named.names made := by
      obtain ⟨embeds', hembeds, embed, hembed, rfl, -⟩ := hlink
      obtain rfl : embeds = embeds' := Except.ok.inj (h.embedded.symm.trans hembeds)
      exact h.mem_names_made.2 ⟨embed, hembed, rfl⟩
    rw [hmade _ ha, hmade _ hb]
    exact .inr ⟨rfl, hb, .inr ⟨a, b, hlink, rfl, rfl⟩⟩

/-- What follows in an expanded table follows before with the stack standing in, or it is the
element of an embed that is reached without leaving the embeds. -/
theorem standIn_follows (h : elements.Expands archs stack embeds made expanded)
    (hstack : stack ∈ elements.toList) (complete : elements.Complete) (hn : expanded.Follows m n) :
    elements.Follows (standIn stack made m) (standIn stack made n) ∨
      standIn stack made m = standIn stack made n ∧ n ∈ Named.names made ∧
        (m ∉ Named.names made ∨
          ∃ a b, Relation.TransGen (Stack.Links archs stack) a b ∧ Embed.fullName stack a = m ∧
            Embed.fullName stack b = n) := by
  induction hn with
  | single hlead =>
    rcases h.standIn_leadsTo hstack complete hlead with hlead | ⟨heq, hn, hstay⟩
    · exact .inl (.single hlead)
    · refine .inr ⟨heq, hn, hstay.imp_right ?_⟩
      rintro ⟨a, b, hlink, ha, hb⟩
      exact ⟨a, b, .single hlink, ha, hb⟩
  | tail _ hlead ih =>
    rcases ih with hfollows | ⟨heq, hmid, hstay⟩
    · rcases h.standIn_leadsTo hstack complete hlead with hlead | ⟨heq, -, -⟩
      · exact .inl (hfollows.tail hlead)
      · exact .inl (heq ▸ hfollows)
    · rcases h.standIn_leadsTo hstack complete hlead with hlead | ⟨heq', hn, hstay'⟩
      · exact .inl (.single (heq ▸ hlead))
      · refine .inr ⟨heq.trans heq', hn, hstay.imp_right ?_⟩
        -- the embed that was reached goes on to a sibling
        rintro ⟨a, b, hlinks, rfl, rfl⟩
        obtain ⟨b', c, hlink, hb, rfl⟩ := hstay'.resolve_left fun hnot => hnot hmid
        obtain rfl := Stack.fullName_inj.1 hb
        exact ⟨a, c, hlinks.tail hlink, rfl, rfl⟩

/-- An expansion brings in no cycles but those between the embeds. -/
theorem follows_self_iff (h : elements.Expands archs stack embeds made expanded)
    (hstack : stack ∈ elements.toList) (complete : elements.Complete) :
    (∃ n, expanded.Follows n n) ↔ (∃ n, elements.Follows n n) ∨
      ∃ a, Relation.TransGen (Stack.Links archs stack) a a := by
  constructor
  · rintro ⟨n, hn⟩
    rcases h.standIn_follows hstack complete hn with hfollows | ⟨-, hmade, hstay⟩
    · exact .inl ⟨_, hfollows⟩
    · obtain ⟨a, b, hlinks, rfl, heq⟩ := hstay.resolve_left fun hnot => hnot hmade
      exact .inr ⟨a, Stack.fullName_inj.1 heq ▸ hlinks⟩
  · rintro (⟨n, hn⟩ | ⟨a, ha⟩)
    · exact ⟨n, Relation.TransGen.mono (fun _ _ => h.leadsTo_mono hstack) _ _ hn⟩
    · exact ⟨_, Relation.TransGen.lift (Embed.fullName stack)
        (fun _ _ => h.leadsTo_of_links) _ _ ha⟩

theorem complete (h : elements.Expands archs stack embeds made expanded)
    (hstack : stack ∈ elements.toList) (complete : elements.Complete) : expanded.Complete := by
  have hmade : ∀ n ∈ Named.names made, n ∈ expanded.names := by
    intro n hn
    obtain ⟨e, he, rfl⟩ := List.mem_map.1 hn
    exact List.mem_map.2 ⟨e, h.table ▸ List.mem_append_right _ he, rfl⟩
  have hold : ∀ n ∈ elements.names, n ∈ expanded.names := by
    intro n hn
    obtain ⟨e, he, rfl⟩ := List.mem_map.1 hn
    refine List.mem_map.2 ⟨_, h.table ▸ List.mem_append_left _ (List.mem_map_of_mem he), ?_⟩
    split
    · next heq => exact heq.symm
    · rfl
  intro m n hn
  rcases h.leadsTo_cases hstack hn with hlead | ⟨-, hnew⟩ | ⟨-, hlead⟩ | ⟨a, b, -, -, -, hnew⟩
  · exact hold n (complete m n hlead)
  · exact hmade n hnew
  · exact hold n (complete _ n hlead)
  · exact hmade n hnew

end Expands

theorem expandStack_leadsTo_mono {name : String} {names : List String}
    (h : elements.expandStack archs name = .ok (expanded, names)) (hn : elements.LeadsTo m n) :
    expanded.LeadsTo m n := by
  cases hstack : elements.find? name with
  | none =>
    simp only [expandStack, hstack, Except.ok.injEq, Prod.mk.injEq] at h
    exact h.1 ▸ hn
  | some stack =>
    obtain ⟨embeds, made, hexpands, -⟩ := (expandStack_eq_ok_iff hstack).1 h
    exact hexpands.leadsTo_mono (Named.mem_of_find? hstack) hn

theorem expandStack_leadsTo_made {name : String} {names : List String}
    (h : elements.expandStack archs name = .ok (expanded, names)) (hn : n ∈ names) :
    expanded.LeadsTo name n := by
  cases hstack : elements.find? name with
  | none =>
    simp only [expandStack, hstack, Except.ok.injEq, Prod.mk.injEq] at h
    rw [← h.2] at hn
    cases hn
  | some stack =>
    obtain ⟨embeds, made, hexpands, rfl⟩ := (expandStack_eq_ok_iff hstack).1 h
    obtain rfl : stack.name = name := Named.name_of_find? hstack
    exact hexpands.leadsTo_made (Named.mem_of_find? hstack) hn

theorem expandEach_leadsTo_mono {names : List String} {full : Elements}
    (h : elements.expandEach archs names = .ok full) (hn : elements.LeadsTo m n) :
    full.LeadsTo m n := by
  induction names generalizing elements with
  | nil => exact Except.ok.inj h ▸ hn
  | cons name rest ih =>
    simp only [expandEach, bind_eq_ok_iff] at h
    obtain ⟨⟨mid, made⟩, hstep, hrest⟩ := h
    exact ih hrest (expandStack_leadsTo_mono hstep hn)

/-- A check passes from where no cycle is reached. -/
theorem checkCircular_of_clear {starts : List String} (h : ∀ start ∈ starts, elements.Clear start) :
    elements.checkCircular starts = .ok () := by
  have htrail : elements.Trail starts [] (starts.map (⟨·, none⟩)) := by
    refine ⟨List.nodup_nil, .nil, fun _ _ _ hnil => (Option.not_mem_none _ hnil).elim, ?_⟩
    intro arrival harrival
    obtain ⟨start, hstart, rfl⟩ := List.mem_map.1 harrival
    exact ⟨start, hstart, .refl⟩
  rw [checkCircular]
  cases hvisit : elements.visit [] (starts.map (⟨·, none⟩)) [] with
  | ok sound => rfl
  | error err =>
    obtain ⟨name, chain, place, -, hcycle, start, hstart, hreach⟩ := visit_isCycle htrail hvisit
    exact absurd hcycle.follows (h start hstart name hreach)

/-- Expansions of stacks from which no cycle is reached in the end pass all checks on the way: what
was made is reached from its stack, and a cycle on the way would still be there. -/
theorem expandAll_of_clear {names : List String} {full : Elements}
    (h : elements.expandEach archs names = .ok full) (hclear : ∀ name ∈ names, full.Clear name) :
    elements.expandAll archs names = .ok full := by
  induction names generalizing elements with
  | nil => exact h
  | cons name rest ih =>
    simp only [expandEach, bind_eq_ok_iff] at h
    obtain ⟨⟨mid, made⟩, hstep, hrest⟩ := h
    have hmono : mid.LeadsTo ≤ full.LeadsTo := fun _ _ => expandEach_leadsTo_mono hrest
    have hcheck : mid.checkCircular made = .ok () := by
      refine checkCircular_of_clear fun start hstart m hreach hcycle => ?_
      have hname : mid.Reaches name m :=
        .head (expandStack_leadsTo_made hstep hstart) hreach
      exact hclear name List.mem_cons_self m (Relation.ReflTransGen.mono hmono _ _ hname)
        (Relation.TransGen.mono hmono _ _ hcycle)
    simp only [expandAll, bind_eq_ok_iff]
    exact ⟨(mid, made), hstep, (), hcheck,
      ih hrest fun n hn => hclear n (List.mem_cons_of_mem _ hn)⟩

/-- Any number of expansions bring in no cycles but those between the embeds of one of the stacks.
-/
theorem expandEach_follows_self_iff {names : List String} {full : Elements} (distinct : names.Nodup)
    (known : ∀ name ∈ names, name ∈ elements.names) (complete : elements.Complete)
    (h : elements.expandEach archs names = .ok full) :
    (∃ n, full.Follows n n) ↔ (∃ n, elements.Follows n n) ∨
      ∃ name ∈ names, ∃ stack, elements.find? name = some stack ∧
        ∃ a, Relation.TransGen (Stack.Links archs stack) a a := by
  induction names generalizing elements with
  | nil =>
    obtain rfl := Except.ok.inj h
    simp
  | cons name rest ih =>
    obtain ⟨hnew, hrest⟩ := List.nodup_cons.1 distinct
    obtain ⟨hname, hothers⟩ := List.forall_mem_cons.1 known
    obtain ⟨stack, hstack⟩ := Option.isSome_iff_exists.1 (Roster.find?_isSome_iff.2 hname)
    simp only [expandEach, bind_eq_ok_iff] at h
    obtain ⟨⟨mid, made⟩, hstep, h⟩ := h
    obtain ⟨embeds, made, hexpands, rfl⟩ := (expandStack_eq_ok_iff hstack).1 hstep
    have hmem : stack ∈ elements.toList := Named.mem_of_find? hstack
    -- the stacks that come later are still what they were
    have hkept : ∀ n ∈ rest, mid.find? n = elements.find? n := fun n hn =>
      find?_expandStack (ne_of_mem_of_not_mem hn hnew)
        (Roster.find?_isSome_iff.2 (hothers n hn)) hstep
    have hknown : ∀ n ∈ rest, n ∈ mid.names := by
      intro n hn
      rw [← Roster.find?_isSome_iff, hkept n hn]
      exact Roster.find?_isSome_iff.2 (hothers n hn)
    have hlater : (∃ n ∈ rest, ∃ stack, mid.find? n = some stack ∧
        ∃ a, Relation.TransGen (Stack.Links archs stack) a a) ↔
        ∃ n ∈ rest, ∃ stack, elements.find? n = some stack ∧
          ∃ a, Relation.TransGen (Stack.Links archs stack) a a :=
      exists_congr fun n => and_congr_right fun hn => by rw [hkept n hn]
    rw [ih hrest hknown (hexpands.complete hmem complete) h, hlater,
      hexpands.follows_self_iff hmem complete, List.exists_mem_cons_iff, hstack, or_assoc]
    simp only [Option.some.injEq, exists_eq_left']

/-- An expansion brings in no cycles but those between the embeds of its stack, and so none of the
checks between expansions fails if no cycle is reached in the end. -/
theorem expandStacks_acyclic (archs : Architectures) (elements : Elements) :
    (∀ name stack expanded names, elements.Complete → elements.find? name = some stack →
      elements.expandStack archs name = .ok (expanded, names) →
      ((∃ n, expanded.Follows n n) ↔ (∃ n, elements.Follows n n) ∨
        ∃ a, Relation.TransGen (Stack.Links archs stack) a a)) ∧
    ∀ target full,
      elements.expandEach archs ((elements.reachable target).filter elements.isStack) = .ok full →
      full.Clear target → elements.expandStacks archs target = .ok full := by
  constructor
  · intro name stack expanded names complete hstack h
    obtain ⟨embeds, made, hexpands, -⟩ := (expandStack_eq_ok_iff hstack).1 h
    exact hexpands.follows_self_iff (Named.mem_of_find? hstack) complete
  · intro target full h hclear
    have hmono : elements.LeadsTo ≤ full.LeadsTo := fun _ _ => expandEach_leadsTo_mono h
    refine expandAll_of_clear h fun name hname => ?_
    have hreach : elements.Reaches target name := mem_reachable_iff.1 (List.mem_filter.1 hname).1
    exact hclear.of_reaches (Relation.ReflTransGen.mono hmono _ _ hreach)

/-- The embeds of the pair do not bring in a cycle, and the check lets them pass. -/
theorem pairTable_acyclic : ∃ full, pairTable.expandStacks {} "s" = .ok full ∧
    ((∃ n, full.Follows n n) ↔ (∃ n, pairTable.Follows n n) ∨
      ∃ a, Relation.TransGen (Stack.Links {} pairStack) a a) := by
  obtain ⟨hcycles, hpasses⟩ := expandStacks_acyclic {} pairTable
  have hcomplete : pairTable.Complete := by
    have hdeps : ∀ e ∈ pairTable.toList, ∀ dep ∈ e.deps, dep.name ∈ pairTable.names := by decide
    intro m n hn
    obtain ⟨e, he, -, dep, hdep, rfl⟩ := leadsTo_iff_mem.1 hn
    exact hdeps e he dep hdep
  have hstacks : (pairTable.reachable "s").filter pairTable.isStack = ["s"] := by decide +kernel
  have hcompute : (pairTable.expandStack {} "s").toOption.map
      (fun result => result.1.checkCircular ["s"]) = some (.ok ()) := by
    decide +kernel
  cases hexpand : pairTable.expandStack {} "s" with
  | error err =>
    rw [hexpand] at hcompute
    cases hcompute
  | ok result =>
    obtain ⟨full, names⟩ := result
    rw [hexpand] at hcompute
    have heach : pairTable.expandEach {} ((pairTable.reachable "s").filter pairTable.isStack) =
        .ok full := by
      rw [hstacks, expandEach, hexpand]
      rfl
    have hclear : full.Clear "s" :=
      clear_of_checkCircular (Option.some.inj hcompute) "s" List.mem_cons_self
    exact ⟨full, hpasses "s" full heach hclear,
      hcycles "s" pairStack full names hcomplete rfl hexpand⟩

end Elements

end BuildGraph
