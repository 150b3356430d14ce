import BuildGraph.Proofs.Project.Include

/-!
# Runs of including

The steps of including with what a load does not ask for: the files that are read, also where the run
fails, and how deep the fragments lie inside one another. A run may be cut off at any depth. None that may
go as deep as there are files is, and what it comes to is what `Include.process` gives (`process_comes`,
`processAll_comes`). No run reads a file twice (`Run.ReadsOnce`).
-/

namespace BuildGraph.Include

/-- The files that are read, in order, and what including comes to, unless it is cut off. -/
structure Run (α : Type) where
  reads : List String
  outcome : Option (Except LoadError α)

namespace Run

variable {α β : Type}

/-- A step that reads nothing. -/
def of (outcome : Except LoadError α) : Run α := ⟨[], some outcome⟩

/-- Reads a file. -/
def read (file : String) : Run Unit := ⟨[file], some (.ok ())⟩

/-- Does not go on. -/
def cutOff : Run α := ⟨[], none⟩

instance : Monad Run where
  pure a := .of (.ok a)
  bind run next :=
    match run.outcome with
    | some (.ok a) => ⟨run.reads ++ (next a).reads, (next a).outcome⟩
    | some (.error e) => ⟨run.reads, some (.error e)⟩
    | none => ⟨run.reads, none⟩

end Run

/-- Runs that go only so many fragments deep. -/
abbrev Bounded := ReaderT Nat Run

instance : Steps Bounded where
  fail e _ := .of (.error e)
  read file _ := .read file
  enter
    | _, 0 => .cutOff
    | steps, depth + 1 => steps depth

/-- The fragment that an entry names, with at most `depth` others inside one another in it. -/
def fetchWithin (files : Files) (depth : Nat) (active : List String) (entry : Entry)
    (done : Fragments) : Run (Node × Fragments) :=
  (Steps.fragment files active entry done : Bounded _) depth

/-- Splices the fragments that the entries name into a document, one after the other. -/
def spliceWithin (files : Files) (depth : Nat) (active : List String) (named : List Entry)
    (document : Node) (done : Fragments) : Run (Node × Fragments) :=
  (Steps.splice (Steps.fragment files active) named document done : Bounded _) depth

/-- Splices the fragments that a document names into it. -/
def processWithin (files : Files) (depth : Nat) (document : Node) (done : Fragments) :
    Run (Node × Fragments) :=
  (Steps.process files document done : Bounded _) depth

/-- Splices the fragments of each of the documents into it. -/
def processAllWithin (files : Files) (depth : Nat) (documents : List Node) (done : Fragments) :
    Run (List Node × Fragments) :=
  (Steps.processAll files documents done : Bounded _) depth

/-- Whether a run is not cut off and comes to an outcome. -/
def Run.Comes {α : Type} (run : Run α) (outcome : Except LoadError α) : Prop :=
  run.outcome = some outcome

section Steps

variable {files : Files} {depth : Nat} {active : List String} {entry : Entry} {text : String}
  {document : Node} {done : Fragments}

theorem of_run {α : Type} (outcome : Except LoadError α) (depth : Nat) :
    (Steps.of outcome : Bounded α) depth = .of outcome := by
  cases outcome <;> rfl

theorem fetchWithin_of_active (h : active.contains entry.file = true) :
    fetchWithin files depth active entry done =
      .of (.error (.circularInclude entry.file active entry.place)) :=
  congrFun (Steps.fragment_of_active (m := Bounded) h) depth

theorem fetchWithin_of_kept (h : ¬active.contains entry.file = true)
    (hkept : done.lookup entry.file = some document) :
    fetchWithin files depth active entry done = pure (document, done) :=
  congrFun (Steps.fragment_of_kept (m := Bounded) h hkept) depth

theorem fetchWithin_of_missing (h : ¬active.contains entry.file = true)
    (hnew : done.lookup entry.file = none) (hmissing : files.lookup entry.file = none) :
    fetchWithin files depth active entry done = (do
      Run.read entry.file
      .of (.error (.missingFragment entry.file entry.place))) :=
  congrFun (Steps.fragment_of_missing (m := Bounded) h hnew hmissing) depth

theorem fetchWithin_of_invalid (h : ¬active.contains entry.file = true)
    (hnew : done.lookup entry.file = none) (htext : files.lookup entry.file = some text)
    {e : ParseError} (he : Node.parseDocument text entry.file = .error e) :
    fetchWithin files depth active entry done = (do
      Run.read entry.file
      .of (.error (.invalidFragment entry.file entry.place e))) :=
  congrFun (Steps.fragment_of_invalid (m := Bounded) h hnew htext he) depth

theorem fetchWithin_of_cutOff (h : ¬active.contains entry.file = true)
    (hnew : done.lookup entry.file = none) (htext : files.lookup entry.file = some text)
    (hparse : Node.parseDocument text entry.file = .ok document) :
    fetchWithin files 0 active entry done = (do
      Run.read entry.file
      .cutOff) :=
  congrFun (Steps.fragment_of_document (m := Bounded) h hnew htext hparse) 0

/-- The fragments inside one that is read lie one level deeper. -/
theorem fetchWithin_of_document (h : ¬active.contains entry.file = true)
    (hnew : done.lookup entry.file = none) (htext : files.lookup entry.file = some text)
    (hparse : Node.parseDocument text entry.file = .ok document) :
    fetchWithin files (depth + 1) active entry done = (do
      Run.read entry.file
      let inner ← Run.of (entries document)
      let (data, kept) ← spliceWithin files depth (active ++ [entry.file]) inner
        (document.erase key) done
      pure (data, kept ++ [(entry.file, data)])) := by
  rw [← of_run (entries document) depth]
  exact congrFun (Steps.fragment_of_document (m := Bounded) h hnew htext hparse) (depth + 1)

theorem spliceWithin_nil :
    spliceWithin files depth active [] document done = pure (document, done) := by
  rw [spliceWithin, Steps.splice]
  rfl

theorem spliceWithin_cons {rest : List Entry} :
    spliceWithin files depth active (entry :: rest) document done = (do
      let (data, kept) ← fetchWithin files depth active entry done
      let document ← Run.of ((Layer.fragment entry.file).onto entry.place data document)
      spliceWithin files depth active rest document kept) := by
  rw [spliceWithin, Steps.splice]
  refine bind_congr (x := fetchWithin files depth active entry done) fun spliced => ?_
  obtain ⟨data, kept⟩ := spliced
  show _ = Run.of ((Layer.fragment entry.file).onto entry.place data document) >>= fun document =>
    spliceWithin files depth active rest document kept
  rw [← of_run _ depth]
  rfl

theorem processWithin_eq : processWithin files depth document done = (do
    let named ← Run.of (entries document)
    spliceWithin files depth [] named (document.erase key) done) := by
  rw [← of_run (entries document) depth]
  rfl

end Steps

section Comes

variable {α β : Type} {files : Files} {depth : Nat}

theorem comes_of (outcome : Except LoadError α) : (Run.of outcome).Comes outcome := rfl

theorem Run.Comes.bind {run : Run α} {outcome : Except LoadError α} {next : α → Run β}
    {f : α → Except LoadError β} (h : run.Comes outcome) (hnext : ∀ a, (next a).Comes (f a)) :
    (run >>= next).Comes (outcome >>= f) := by
  obtain ⟨reads, result⟩ := run
  obtain rfl : result = some outcome := h
  cases outcome with
  | error e => rfl
  | ok a => exact hnext a

theorem comes_read_bind {file : String} {next : Unit → Run α} {outcome : Except LoadError α}
    (h : (next ()).Comes outcome) : (Run.read file >>= next).Comes outcome := h

/-- A fragment that is read is one file fewer that is not active. -/
theorem inactive_append_lt {active : List String} {file text : String}
    (htext : files.lookup file = some text) (h : ¬active.contains file = true) :
    inactive files (active ++ [file]) < inactive files active :=
  length_unseen_append_lt (Keyed.lookup_isSome_iff.1 (by simp [htext])) (by simpa using h)

/-- A run that may go as deep as there are files that are not active is not cut off. -/
theorem within_comes (files : Files) :
    (∀ active entry done depth, inactive files active ≤ depth →
      (fetchWithin files depth active entry done).Comes (fragment files active entry done)) ∧
    ∀ active named document done depth, inactive files active ≤ depth →
      (spliceWithin files depth active named document done).Comes
        (splice files active named document done) := by
  refine Steps.induction files _ _ ?circular ?kept ?read ?nil ?cons
  case circular =>
    intro active entry done hactive depth _
    rw [fetchWithin_of_active hactive, fragment_of_active hactive]
    exact comes_of _
  case kept =>
    intro active entry done hactive found hfound depth _
    rw [fetchWithin_of_kept hactive hfound, fragment_of_kept hactive hfound]
    exact comes_of _
  case read =>
    intro active entry done hactive hnew ih depth hdepth
    cases htext : files.lookup entry.file with
    | none =>
      rw [fetchWithin_of_missing hactive hnew htext, fragment_of_missing hactive hnew htext]
      exact comes_read_bind (comes_of _)
    | some text =>
      have hfewer := inactive_append_lt htext hactive
      cases hparse : Node.parseDocument text entry.file with
      | error e =>
        rw [fetchWithin_of_invalid hactive hnew htext hparse,
          fragment_of_invalid hactive hnew htext hparse]
        exact comes_read_bind (comes_of _)
      | ok document =>
        cases depth with
        | zero => omega
        | succ depth =>
          rw [fetchWithin_of_document hactive hnew htext hparse,
            fragment_of_document hactive hnew htext hparse]
          have hsplice := fun inner => ih text htext (document.erase key) inner depth (by omega)
          exact comes_read_bind ((comes_of _).bind fun inner => (hsplice inner).bind fun _ =>
            comes_of _)
  case nil =>
    intro active document done depth _
    rw [spliceWithin_nil, splice_nil]
    exact comes_of _
  case cons =>
    intro active entry rest document done ihFirst ihRest depth hdepth
    rw [spliceWithin_cons, splice_cons]
    exact (ihFirst depth hdepth).bind fun _ => (comes_of _).bind fun _ => ihRest _ _ depth hdepth

theorem inactive_le_length (files : Files) : inactive files [] ≤ files.length := by
  have hlength : (Keyed.keys files).length = files.length := List.length_map _
  exact hlength ▸ List.length_filter_le _ _

theorem process_comes (h : files.length ≤ depth) (document : Node) (done : Fragments) :
    (processWithin files depth document done).Comes (process files document done) := by
  have hdepth : inactive files [] ≤ depth := Nat.le_trans (inactive_le_length files) h
  rw [processWithin_eq, process_eq]
  exact (comes_of _).bind fun named => (within_comes files).2 [] named _ _ depth hdepth

theorem processAll_comes (h : files.length ≤ depth) (documents : List Node) (done : Fragments) :
    (processAllWithin files depth documents done).Comes (processAll files documents done) := by
  induction documents generalizing done with
  | nil => exact comes_of _
  | cons document rest ih =>
    exact (process_comes h document done).bind fun _ => (ih _).bind fun _ => comes_of _

end Comes

section Reads

variable {α β γ : Type} {files : Files} {active : List String} {done : Fragments}

/-- Whether a run reads no file twice, and none that is kept or being processed; what it keeps in
the end are the fragments that were kept and those that it reads. -/
structure Run.ReadsOnce (active : List String) (done : Fragments) (run : Run (α × Fragments)) :
    Prop where
  nodup : run.reads.Nodup
  fresh : ∀ file ∈ run.reads, file ∉ active ∧ file ∉ Keyed.keys done
  keeps : ∀ a done', run.outcome = some (.ok (a, done')) →
    ∀ file, file ∈ Keyed.keys done' ↔ file ∈ Keyed.keys done ∨ file ∈ run.reads

theorem readsOnce_pure (a : α) : Run.ReadsOnce active done (pure (a, done)) := by
  refine ⟨List.nodup_nil, List.forall_mem_nil _, fun b done' h file => ?_⟩
  obtain ⟨rfl, rfl⟩ := Prod.mk.inj (Except.ok.inj (Option.some.inj h))
  simp [Pure.pure, Run.of]

theorem readsOnce_error (e : LoadError) :
    Run.ReadsOnce active done (.of (.error e) : Run (α × Fragments)) :=
  ⟨List.nodup_nil, List.forall_mem_nil _, fun _ _ h => nomatch h⟩

/-- A step that reads nothing goes before others. -/
theorem readsOnce_of_bind {outcome : Except LoadError γ} {next : γ → Run (β × Fragments)}
    (h : ∀ a, outcome = .ok a → Run.ReadsOnce active done (next a)) :
    Run.ReadsOnce active done (Run.of outcome >>= next) := by
  cases outcome with
  | error e => exact readsOnce_error e
  | ok a => exact h a rfl

/-- What the first part of a run reads is kept before the second. -/
theorem Run.ReadsOnce.bind {run : Run (α × Fragments)} {next : α × Fragments → Run (β × Fragments)}
    (h : run.ReadsOnce active done)
    (hnext : ∀ a kept, Run.ReadsOnce active kept (next (a, kept))) :
    (run >>= next).ReadsOnce active done := by
  obtain ⟨reads, outcome⟩ := run
  cases outcome with
  | none => exact ⟨h.nodup, h.fresh, fun _ _ hok => nomatch hok⟩
  | some outcome =>
    cases outcome with
    | error e => exact ⟨h.nodup, h.fresh, fun _ _ hok => nomatch hok⟩
    | ok final =>
      obtain ⟨a, kept⟩ := final
      have hkept := h.keeps a kept rfl
      obtain ⟨hnodup, hfresh, hkeeps⟩ := hnext a kept
      refine ⟨List.nodup_append.2 ⟨h.nodup, hnodup, ?_⟩, fun file hfile => ?_,
        fun b done' hok file => ?_⟩
      · rintro file hfile _ hlater rfl
        exact (hfresh file hlater).2 ((hkept file).2 (.inr hfile))
      · rcases List.mem_append.1 hfile with hfirst | hlater
        · exact h.fresh file hfirst
        · obtain ⟨hinactive, hnew⟩ := hfresh file hlater
          exact ⟨hinactive, fun hold => hnew ((hkept file).2 (.inl hold))⟩
      · rw [hkeeps b done' hok file, hkept file, or_assoc]
        exact or_congr_right List.mem_append.symm

/-- A fragment that is read stays active until it is kept. -/
theorem readsOnce_fetch {file : String} {run : Run (Node × Fragments)} (hactive : file ∉ active)
    (hnew : done.lookup file = none) (h : run.ReadsOnce (active ++ [file]) done) :
    Run.ReadsOnce active done (Run.read file >>= fun _ => run >>= fun (data, kept) =>
      pure (data, kept ++ [(file, data)])) := by
  have hfile : file ∉ run.reads := fun hmem => (h.fresh file hmem).1 (by simp)
  have hfresh : ∀ f ∈ file :: run.reads, f ∉ active ∧ f ∉ Keyed.keys done :=
    List.forall_mem_cons.2 ⟨⟨hactive, Keyed.lookup_eq_none_iff.1 hnew⟩, fun f hf =>
      ⟨fun hmem => (h.fresh f hf).1 (List.mem_append_left _ hmem), (h.fresh f hf).2⟩⟩
  obtain ⟨reads, outcome⟩ := run
  cases outcome with
  | none => exact ⟨List.nodup_cons.2 ⟨hfile, h.nodup⟩, hfresh, fun _ _ hok => nomatch hok⟩
  | some outcome =>
    cases outcome with
    | error e => exact ⟨List.nodup_cons.2 ⟨hfile, h.nodup⟩, hfresh, fun _ _ hok => nomatch hok⟩
    | ok final =>
      obtain ⟨data, kept⟩ := final
      have hrun : (Run.read file >>= fun _ => (⟨reads, some (.ok (data, kept))⟩ : Run _) >>=
          fun (data, kept) => pure (data, kept ++ [(file, data)])) =
          ⟨file :: reads, some (.ok (data, kept ++ [(file, data)]))⟩ :=
        congrArg (fun reads => Run.mk (file :: reads) _) (List.append_nil reads)
      rw [hrun]
      refine ⟨List.nodup_cons.2 ⟨hfile, h.nodup⟩, hfresh, fun b done' hok f => ?_⟩
      obtain ⟨rfl, rfl⟩ := Prod.mk.inj (Except.ok.inj (Option.some.inj hok))
      have hkeys : Keyed.keys (kept ++ [(file, data)]) = Keyed.keys kept ++ [file] :=
        List.map_append
      rw [hkeys, List.mem_append, List.mem_singleton, h.keeps data kept rfl f, List.mem_cons,
        or_assoc]
      exact or_congr_right or_comm

/-- A file that is read, but comes to nothing. -/
theorem readsOnce_read {file : String} (hactive : file ∉ active) (hnew : done.lookup file = none)
    {run : Run (α × Fragments)} (hreads : run.reads = [])
    (houtcome : run.outcome.bind Except.toOption = none) :
    Run.ReadsOnce active done (Run.read file >>= fun _ => run) := by
  have hnodup : [file].Nodup := by simp
  have hfresh : ∀ f ∈ [file], f ∉ active ∧ f ∉ Keyed.keys done :=
    List.forall_mem_singleton.2 ⟨hactive, Keyed.lookup_eq_none_iff.1 hnew⟩
  obtain ⟨reads, outcome⟩ := run
  obtain rfl : reads = [] := hreads
  cases outcome with
  | none => exact ⟨hnodup, hfresh, fun _ _ hok => nomatch hok⟩
  | some outcome =>
    cases outcome with
    | error e => exact ⟨hnodup, hfresh, fun _ _ hok => nomatch hok⟩
    | ok final => cases houtcome

theorem within_readsOnce (files : Files) :
    (∀ active entry done depth, (fetchWithin files depth active entry done).ReadsOnce active done) ∧
    ∀ active named document done depth,
      (spliceWithin files depth active named document done).ReadsOnce active done := by
  refine Steps.induction files _ _ ?circular ?kept ?read ?nil ?cons
  case circular =>
    intro active entry done hactive depth
    rw [fetchWithin_of_active hactive]
    exact readsOnce_error _
  case kept =>
    intro active entry done hactive found hfound depth
    rw [fetchWithin_of_kept hactive hfound]
    exact readsOnce_pure found
  case read =>
    intro active entry done hactive hnew ih depth
    have hfile : entry.file ∉ active := by simpa using hactive
    cases htext : files.lookup entry.file with
    | none =>
      rw [fetchWithin_of_missing hactive hnew htext]
      exact readsOnce_read hfile hnew rfl rfl
    | some text =>
      cases hparse : Node.parseDocument text entry.file with
      | error e =>
        rw [fetchWithin_of_invalid hactive hnew htext hparse]
        exact readsOnce_read hfile hnew rfl rfl
      | ok document =>
        cases depth with
        | zero =>
          rw [fetchWithin_of_cutOff hactive hnew htext hparse]
          exact readsOnce_read hfile hnew rfl rfl
        | succ depth =>
          rw [fetchWithin_of_document hactive hnew htext hparse]
          cases entries document with
          | error e => exact readsOnce_read hfile hnew rfl rfl
          | ok inner => exact readsOnce_fetch hfile hnew (ih text htext (document.erase key) inner depth)
  case nil =>
    intro active document done depth
    rw [spliceWithin_nil]
    exact readsOnce_pure document
  case cons =>
    intro active entry rest document done ihFirst ihRest depth
    rw [spliceWithin_cons]
    exact (ihFirst depth).bind fun data kept =>
      readsOnce_of_bind fun mid _ => ihRest mid kept depth

theorem processWithin_readsOnce (depth : Nat) (document : Node) (done : Fragments) :
    (processWithin files depth document done).ReadsOnce [] done := by
  rw [processWithin_eq]
  exact readsOnce_of_bind fun named _ => (within_readsOnce files).2 [] named _ done depth

theorem processAllWithin_readsOnce (depth : Nat) (documents : List Node) (done : Fragments) :
    (processAllWithin files depth documents done).ReadsOnce [] done := by
  induction documents generalizing done with
  | nil => exact readsOnce_pure []
  | cons document rest ih =>
    exact (processWithin_readsOnce depth document done).bind fun first kept =>
      (ih kept).bind fun others kept' => readsOnce_pure (first :: others)

end Reads

end BuildGraph.Include
