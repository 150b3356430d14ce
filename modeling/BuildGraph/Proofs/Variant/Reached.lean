import BuildGraph.Proofs.Variant.Commit
import BuildGraph.Proofs.Variant.Consistency

/-!
# What a pool holds

A search takes nothing out of a pool. It puts configurations in, each for a dependency of one that
it has put in before, and a later one may take the place of an earlier one of its element. The
elements of a pool are those that are reached by all that was put in (`Elements.Puts`), also by what
was replaced.
-/

namespace BuildGraph

/-- The names that are reached from the target by the dependencies of configurations. -/
inductive ReachedBy (cs : List Configuration) (target : String) : String → Prop
  | target : ReachedBy cs target target
  | step {c : Configuration} {dep : Dependency} :
    ReachedBy cs target c.element → c ∈ cs → dep ∈ c.deps → ReachedBy cs target dep.name

namespace ReachedBy

variable {cs ds : List Configuration} {target n : String}

theorem mono (h : ReachedBy cs target n) (hsub : ∀ c ∈ cs, c ∈ ds) : ReachedBy ds target n := by
  induction h with
  | target => exact .target
  | step _ hc hdep ih => exact .step ih (hsub _ hc) hdep

/-- What has the target and all that configurations of it depend on has all that is reached. -/
theorem of_closed {p : String → Prop} (h : ReachedBy cs target n) (htarget : p target)
    (hstep : ∀ c ∈ cs, p c.element → ∀ dep ∈ c.deps, p dep.name) : p n := by
  induction h with
  | target => exact htarget
  | step _ hc hdep ih => exact hstep _ hc ih _ hdep

end ReachedBy

namespace Elements

variable {elements : Elements} {target : String} {variant : Option String}
  {log : List Configuration} {pool : Pool}

/-- The configurations that a search from the target puts into its pool, in the order it does, and
the pool that they make. -/
inductive Puts (elements : Elements) (target : String) (variant : Option String) :
    List Configuration → Pool → Prop
  | nothing : elements.find? target = none → Puts elements target variant [] .empty
  | target {e : Element} : elements.find? target = some e →
    Puts elements target variant [start e variant] (.put .empty (start e variant))
  | put {log : List Configuration} {pool : Pool} {asking c : Configuration} {dep : Dependency} :
    Puts elements target variant log pool → asking ∈ log → dep ∈ asking.deps →
    c ∈ elements.candidates dep → pool.conflict? c = none → pool.settles c = false →
    Puts elements target variant (log ++ [c]) (pool.put c)

/-- What a pool holds after the configurations `log` were put into it. -/
structure Holds (elements : Elements) (target : String) (log : List Configuration) (pool : Pool) :
    Prop where
  put : ∀ c ∈ pool.toList, c ∈ log
  /-- An entry is only replaced by a request by name for another variant. -/
  replaced : ∀ c ∈ log, c ∈ pool.toList ∨
    ∃ d ∈ log, d.element = c.element ∧ d.variant ≠ c.variant ∧ d.isExplicit = true
  reached : ∀ n, (pool.find? n).isSome ↔ (elements.find? n).isSome ∧ ReachedBy log target n
  /-- The entries themselves reach everything exactly if what they replaced depends on nothing else.
  -/
  exact : (∀ n, (pool.find? n).isSome ↔
      (elements.find? n).isSome ∧ ReachedBy pool.toList target n) ↔
    ∀ c ∈ log, ReachedBy pool.toList target c.element → ∀ dep ∈ c.deps,
      ReachedBy pool.toList target dep.name

namespace Puts

theorem mem_log (h : elements.Puts target variant log pool) : ∀ c ∈ pool.toList, c ∈ log := by
  induction h with
  | nothing => exact fun _ hc => hc
  | target => exact fun c hc => List.mem_singleton.2 (mem_start hc)
  | put _ _ _ _ _ _ ih =>
    exact Roster.forall_mem_put (List.mem_append_right _ List.mem_cons_self)
      fun c hc => List.mem_append_left _ (ih c hc)

theorem isSome_iff (h : elements.Puts target variant log pool) {n : String} :
    (pool.find? n).isSome ↔ ∃ c ∈ log, c.element = n := by
  induction h with
  | nothing => simp [Roster.find?, Named.find?]
  | @target e =>
    rw [Roster.find?_isSome_iff]
    simp [Roster.names, Named.names, Named.put, Named.name, eq_comm]
  | @put log pool asking c dep _ _ _ _ _ _ ih =>
    rw [Roster.find?_put]
    by_cases hname : Named.name c = n
    · rw [if_pos hname]
      exact iff_of_true rfl ⟨c, List.mem_append_right _ List.mem_cons_self, hname⟩
    · rw [if_neg hname, ih]
      constructor
      · rintro ⟨d, hd, hdn⟩
        exact ⟨d, List.mem_append_left _ hd, hdn⟩
      · rintro ⟨d, hd, hdn⟩
        rcases List.mem_append.1 hd with hold | hlast
        · exact ⟨d, hold, hdn⟩
        · exact absurd (List.mem_singleton.1 hlast ▸ hdn) hname

theorem replaced (h : elements.Puts target variant log pool) : ∀ c ∈ log, c ∈ pool.toList ∨
    ∃ d ∈ log, d.element = c.element ∧ d.variant ≠ c.variant ∧ d.isExplicit = true := by
  induction h with
  | nothing => exact fun _ hc => absurd hc List.not_mem_nil
  | @target e =>
    intro c hc
    obtain rfl := List.mem_singleton.1 hc
    exact .inl (Roster.mem_put_iff.2 (.inl rfl))
  | @put log pool asking new dep _ _ _ _ _ hs ih =>
    intro c hc
    have hnew : new ∈ log ++ [new] := List.mem_append_right _ List.mem_cons_self
    rcases List.mem_append.1 hc with hold | hlast
    · rcases ih c hold with hentry | ⟨d, hd, hreplaces⟩
      · by_cases hname : new.element = c.element
        · -- the entry is the one that makes room
          have hfound : pool.find? new.element = some c := hname ▸ Roster.find?_name_of_mem hentry
          obtain ⟨hne, hexplicit⟩ := Pool.ne_of_settles_eq_false hs hfound
          exact .inr ⟨new, hnew, hname, hne.symm, hexplicit⟩
        · exact .inl (Roster.mem_put_iff.2 (.inr ⟨hname, hentry⟩))
      · exact .inr ⟨d, List.mem_append_left _ hd, hreplaces⟩
    · exact .inl (Roster.mem_put_iff.2 (.inl (List.mem_singleton.1 hlast)))

theorem known (h : elements.Puts target variant log pool) :
    ∀ c ∈ log, (elements.find? c.element).isSome := by
  induction h with
  | nothing => exact fun _ hc => absurd hc List.not_mem_nil
  | @target e he =>
    intro c hc
    obtain rfl := List.mem_singleton.1 hc
    have hname : e.name = target := Named.name_of_find? he
    rw [start, Configuration.of_element, hname, he]
    rfl
  | put _ _ _ hc _ _ ih =>
    obtain ⟨-, helem, -, e, he, -⟩ := candidate_spec hc
    refine List.forall_mem_append.2 ⟨ih, List.forall_mem_singleton.2 ?_⟩
    rw [helem, he]
    rfl

/-- Everything that was put in is reached by what was put in before it. -/
theorem reached (h : elements.Puts target variant log pool) :
    ∀ c ∈ log, ReachedBy log target c.element := by
  induction h with
  | nothing => exact fun _ hc => absurd hc List.not_mem_nil
  | @target e he =>
    intro c hc
    obtain rfl := List.mem_singleton.1 hc
    obtain rfl : e.name = target := Named.name_of_find? he
    exact .target
  | @put log pool asking new dep _ hasking hdep hc _ _ ih =>
    have hkeep : ∀ {n}, ReachedBy log target n → ReachedBy (log ++ [new]) target n :=
      fun h => h.mono fun c hc => List.mem_append_left _ hc
    refine List.forall_mem_append.2 ⟨fun c hc => hkeep (ih c hc), List.forall_mem_singleton.2 ?_⟩
    rw [(candidate_spec hc).2.1]
    exact .step (hkeep (ih _ hasking)) (List.mem_append_left _ hasking) hdep

theorem target_mem (h : elements.Puts target variant log pool)
    (hn : (elements.find? target).isSome) : ∃ c ∈ log, c.element = target := by
  induction h with
  | nothing hnone =>
    rw [hnone] at hn
    cases hn
  | @target e he => exact ⟨_, List.mem_cons_self, Named.name_of_find? he⟩
  | put _ _ _ _ _ _ ih =>
    obtain ⟨c, hc, hname⟩ := ih
    exact ⟨c, List.mem_append_left _ hc, hname⟩

end Puts

/-- What every step of a search keeps: what waits is asked for by something that was put in, and
what was put in has its dependencies wait or finds their elements in the pool. -/
structure Logged (elements : Elements) (target : String) (variant : Option String)
    (log : List Configuration) (s : SearchState) : Prop where
  puts : elements.Puts target variant log s.2
  asked : ∀ dep ∈ s.1, ∃ c ∈ log, dep ∈ c.deps
  answered : ∀ c ∈ log, ∀ dep ∈ c.deps, dep ∈ s.1 ∨ (s.2.find? dep.name).isSome

theorem Logged.step {s t : SearchState} (h : elements.Logged target variant log s)
    (hstep : elements.Step s t) : ∃ log, elements.Logged target variant log t := by
  cases hstep with
  | @settle dep rest pool c hc hn hs =>
    refine ⟨log, h.puts, fun d hd => h.asked d (List.mem_cons_of_mem _ hd), fun d hd own hown => ?_⟩
    rcases h.answered d hd own hown with hwait | hfound
    · rcases List.mem_cons.1 hwait with rfl | hrest
      · obtain ⟨entry, hentry, -⟩ := Pool.settles_iff.1 hs
        rw [(candidate_spec hc).2.1] at hentry
        exact .inr (Option.isSome_iff_exists.2 ⟨entry, hentry⟩)
      · exact .inl hrest
    · exact .inr hfound
  | @put dep rest pool c hc hn hs =>
    obtain ⟨asking, hasking, hdep⟩ := h.asked dep List.mem_cons_self
    refine ⟨log ++ [c], .put h.puts hasking hdep hc hn hs, fun d hd => ?_, fun d hd own hown => ?_⟩
    · rcases List.mem_append.1 hd with hnew | hrest
      · exact ⟨c, List.mem_append_right _ List.mem_cons_self, hnew⟩
      · obtain ⟨e, he, hown⟩ := h.asked d (List.mem_cons_of_mem _ hrest)
        exact ⟨e, List.mem_append_left _ he, hown⟩
    · rcases List.mem_append.1 hd with hold | hlast
      · rcases h.answered d hold own hown with hwait | hfound
        · rcases List.mem_cons.1 hwait with rfl | hrest
          · have hname : Named.name c = own.name := (candidate_spec hc).2.1
            rw [Roster.find?_put_self hname]
            exact .inr rfl
          · exact .inl (List.mem_append_right _ hrest)
        · exact .inr (Roster.find?_put_isSome c hfound)
      · exact .inl (List.mem_append_left _ (List.mem_singleton.1 hlast ▸ hown))

theorem Logged.run {s t : SearchState} (h : elements.Logged target variant log s)
    (hrun : elements.Run s t) : ∃ log, elements.Logged target variant log t := by
  induction hrun with
  | refl => exact ⟨log, h⟩
  | tail _ hstep ih =>
    obtain ⟨log, hlogged⟩ := ih
    exact hlogged.step hstep

theorem resolve_logged (h : elements.resolve target variant = .ok pool) :
    ∃ log, elements.Logged target variant log ([], pool) := by
  cases known : elements.find? target with
  | none =>
    rw [resolve, known] at h
    obtain rfl := Except.ok.inj h
    exact ⟨[], .nothing known, fun _ hnil => absurd hnil List.not_mem_nil,
      fun _ hnil => absurd hnil List.not_mem_nil⟩
  | some e =>
    have hstart : elements.Logged target variant [start e variant]
        ((start e variant).deps, .put .empty (start e variant)) := by
      refine ⟨.target known, fun dep hdep => ⟨_, List.mem_cons_self, hdep⟩, fun c hc dep hdep => ?_⟩
      obtain rfl := List.mem_singleton.1 hc
      exact .inl hdep
    exact hstart.run (resolve_run known h)

theorem Logged.holds (h : elements.Logged target variant log ([], pool)) :
    elements.Holds target log pool := by
  have hanswered : ∀ c ∈ log, ∀ dep ∈ c.deps, (pool.find? dep.name).isSome :=
    fun c hc dep hdep => (h.answered c hc dep hdep).resolve_left List.not_mem_nil
  have hknown : ∀ n, (pool.find? n).isSome → (elements.find? n).isSome := by
    intro n hn
    obtain ⟨c, hc, rfl⟩ := h.puts.isSome_iff.1 hn
    exact h.puts.known c hc
  have hreached : ∀ n, (pool.find? n).isSome ↔
      (elements.find? n).isSome ∧ ReachedBy log target n := by
    intro n
    constructor
    · intro hn
      refine ⟨hknown n hn, ?_⟩
      obtain ⟨c, hc, rfl⟩ := h.puts.isSome_iff.1 hn
      exact h.puts.reached c hc
    · rintro ⟨hn, hreach⟩
      cases hreach with
      | target => exact h.puts.isSome_iff.2 (h.puts.target_mem hn)
      | step _ hc hdep => exact hanswered _ hc _ hdep
  refine ⟨h.puts.mem_log, h.puts.replaced, hreached, ?_⟩
  constructor
  · intro hexact c hc _ dep hdep
    exact ((hexact dep.name).1 (hanswered c hc dep hdep)).2
  · intro hclosed n
    constructor
    · intro hn
      obtain ⟨hknown, hreach⟩ := (hreached n).1 hn
      exact ⟨hknown, hreach.of_closed .target hclosed⟩
    · rintro ⟨hknown, hreach⟩
      exact (hreached n).2 ⟨hknown, hreach.mono h.puts.mem_log⟩

/-- A commit fails only on an element that cannot have the variant of its configuration. -/
theorem exists_choose_of_commit_error {cs : List Configuration} (hcs : (Named.names cs).Nodup)
    {err : LoadError} (h : elements.commit cs = .error err) :
    ∃ c ∈ cs, ∃ e, elements.find? c.element = some e ∧ e.choose c.variant = .error err := by
  induction cs generalizing elements with
  | nil => cases h
  | cons c rest ih =>
    obtain ⟨hnew, hrest⟩ := List.nodup_cons.1 hcs
    cases he : elements.find? c.element with
    | none =>
      simp only [commit, he] at h
      obtain ⟨d, hd, hfails⟩ := ih hrest h
      exact ⟨d, List.mem_cons_of_mem _ hd, hfails⟩
    | some e =>
      simp only [commit, he] at h
      cases hcommit : c.commitTo e with
      | error err' =>
        rw [hcommit] at h
        cases h
        have hfails : e.choose c.variant = .error err :=
          Element.choose_eq_error_iff.2 (Configuration.commitTo_eq_error_iff.1 hcommit)
        exact ⟨c, List.mem_cons_self, e, he, hfails⟩
      | ok chosen =>
        rw [hcommit] at h
        obtain ⟨d, hd, f, hf, hfails⟩ := ih hrest h
        -- no later configuration is of the element that was committed
        have hname : chosen.name = c.element :=
          (Configuration.name_of_commitTo hcommit).trans (Named.name_of_find? he)
        have hne : Named.name chosen ≠ d.element := fun heq =>
          hnew (List.mem_map.2 ⟨d, hd, (hname.symm.trans heq).symm⟩)
        rw [Roster.find?_put_of_ne hne] at hf
        exact ⟨d, List.mem_cons_of_mem _ hd, f, hf, hfails⟩

/-- A pool that resolves holds what is reached by all that was put into it, and a commit of it fails
only on an element that is so reached. -/
theorem resolve_holds (h : elements.resolve target variant = .ok pool) :
    ∃ log, elements.Puts target variant log pool ∧ elements.Holds target log pool ∧
      ∀ err, elements.commit pool.toList = .error err →
        ∃ c ∈ pool.toList, ∃ e, elements.find? c.element = some e ∧
          e.choose c.variant = .error err ∧ ReachedBy log target c.element := by
  obtain ⟨log, hlogged⟩ := resolve_logged h
  refine ⟨log, hlogged.puts, hlogged.holds, fun err herr => ?_⟩
  obtain ⟨c, hc, e, he, hfails⟩ := exists_choose_of_commit_error pool.nodup herr
  exact ⟨c, hc, e, he, hfails, hlogged.puts.reached c (hlogged.puts.mem_log c hc)⟩

/-- The element `d` moves `c` into the variant `y`; what `c` needed in the variant `x` stays behind,
and it cannot be composed in the first of its variants. -/
def leftoverTable : Elements :=
  let place : Provenance := .fileStart "e"
  .ofList [
    .bare "b" [.between "b" "c" none, .between "b" "d" none] [],
    .bare "c" [] [("x", [.between "c" "e" none]), ("y", [])],
    .bare "d" [.between "d" "c" (some "y")] [],
    { Element.bare "e" [] [] with
      data := .mapping [("flags", .sequence [] place)] place
      variants := [⟨"p", .mapping [("flags", .scalar (.string "b") place)] place, [], place⟩,
        ⟨"q", .emptyMapping place, [], place⟩] }]

/-- The pool holds an element that its own entries do not reach, and a commit fails because of it.
-/
theorem leftoverTable_leftover : ∃ pool err e, leftoverTable.resolve "b" none = .ok pool ∧
    (pool.find? "e").isSome ∧ ¬ReachedBy pool.toList "b" "e" ∧
    leftoverTable.commit pool.toList = .error err ∧
    leftoverTable.find? "e" = some e ∧ e.choose (some "p") = .error err := by
  refine ⟨_, _, _, rfl, rfl, fun hreach => ?_, rfl, rfl, rfl⟩
  have hin : "e" ∈ ["b", "c", "d"] := hreach.of_closed (by decide) (by decide +kernel)
  exact absurd hin (by decide)

theorem leftoverTable_holds : ∃ pool log, leftoverTable.resolve "b" none = .ok pool ∧
    leftoverTable.Puts "b" none log pool ∧ ReachedBy log "b" "e" := by
  have hresolve : leftoverTable.resolve "b" none = .ok _ := rfl
  obtain ⟨log, hputs, hholds, -⟩ := resolve_holds hresolve
  exact ⟨_, log, hresolve, hputs, ((hholds.reached "e").1 rfl).2⟩

end Elements

end BuildGraph
