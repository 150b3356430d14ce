import BuildGraph.Proofs.Project.Circle

/-!
# Sessions of including

In a session documents are processed one after the other, and the fragments that were read are
kept. What is kept is closed under includes and apart from what is being processed (`Kept`), so that
no fragment that is kept could close a circle. Hence it makes no difference whether a fragment is
kept or read again (`splicesAlike`).
-/

namespace BuildGraph.Include

/-- What fragments are kept, while others are being processed: results that nothing is missing of,
and none of a fragment that is being processed. -/
structure Kept (files : Files) (active : List String) (done : Fragments) : Prop where
  sound : Sound files done
  closed : ∀ file ∈ Keyed.keys done, ∀ other, Declares files file other → other ∈ Keyed.keys done
  apart : ∀ file ∈ Keyed.keys done, file ∉ active

variable {files : Files} {active : List String} {entry : Entry} {named : List Entry}
  {document : Node} {done other : Fragments}

section Kept

theorem kept_nil : Kept files active [] :=
  ⟨sound_nil, List.forall_mem_nil _, List.forall_mem_nil _⟩

/-- A fragment that is not kept may be processed. -/
theorem Kept.activate (h : Kept files active done) (hnew : done.lookup entry.file = none) :
    Kept files (active ++ [entry.file]) done := by
  refine ⟨h.sound, h.closed, fun file hfile hactive => ?_⟩
  rcases List.mem_append.1 hactive with hold | hlast
  · exact h.apart file hfile hold
  · exact Keyed.lookup_eq_none_iff.1 hnew (List.mem_singleton.1 hlast ▸ hfile)

/-- A fragment whose includes are kept is kept next, when it is no longer processed. -/
theorem Kept.complete {file : String} {data : Node} (h : Kept files (active ++ [file]) done)
    (hactive : file ∉ active) (hdata : Expands files file data)
    (hdeclares : ∀ next, Declares files file next → next ∈ Keyed.keys done) :
    Kept files active (done ++ [(file, data)]) := by
  have hkeys : Keyed.keys (done ++ [(file, data)]) = Keyed.keys done ++ [file] := List.map_append
  refine ⟨h.sound.append hdata, fun f hf next hnext => ?_, fun f hf => ?_⟩
  · rw [hkeys] at hf ⊢
    refine List.mem_append_left _ ?_
    rcases List.mem_append.1 hf with hold | hlast
    · exact h.closed f hold next hnext
    · exact hdeclares next (List.mem_singleton.1 hlast ▸ hnext)
  · rw [hkeys] at hf
    rcases List.mem_append.1 hf with hold | hlast
    · exact fun hmem => h.apart f hold (List.mem_append_left _ hmem)
    · exact List.mem_singleton.1 hlast ▸ hactive

/-- Nothing that a kept fragment includes is being processed. -/
theorem Kept.not_mem_active (h : Kept files active done) {start file : String}
    (hstart : start ∈ Keyed.keys done)
    (hreach : Relation.ReflTransGen (Declares files) start file) : file ∉ active := by
  suffices hfile : file ∈ Keyed.keys done from h.apart file hfile
  induction hreach with
  | refl => exact hstart
  | tail _ hdeclares ih => exact h.closed _ ih _ hdeclares

/-- What a successful step keeps, besides what was kept before. -/
structure Keeps (files : Files) (active : List String) (named : List Entry)
    (done done' : Fragments) : Prop where
  kept : Kept files active done'
  subset : Keyed.keys done ⊆ Keyed.keys done'
  named : ∀ entry ∈ named, entry.file ∈ Keyed.keys done'

theorem keeps (files : Files) :
    (∀ active entry done data done', fragment files active entry done = .ok (data, done') →
      Kept files active done → Keeps files active [entry] done done') ∧
    ∀ active named document done result done',
      splice files active named document done = .ok (result, done') →
      Kept files active done → Keeps files active named done done' := by
  refine ok_induction files
    (fun active entry done _ done' =>
      Kept files active done → Keeps files active [entry] done done')
    (fun active named _ done _ done' =>
      Kept files active done → Keeps files active named done done')
    ?kept ?read ?nil ?cons
  case kept =>
    intro active entry done found _ hfound hkept
    have hfile : entry.file ∈ Keyed.keys done := Keyed.lookup_isSome_iff.1 (by simp [hfound])
    exact ⟨hkept, List.Subset.refl _, List.forall_mem_singleton.2 hfile⟩
  case read =>
    intro active entry done text document inner data mid hactive hnew htext hparse hinner hsplice
      hmerge hkept
    have hmid := hmerge (hkept.activate hnew)
    obtain ⟨hsplices, -⟩ := merges _ _ _ _ data mid hsplice hkept.sound
    have hdeclares : ∀ next, Declares files entry.file next → next ∈ Keyed.keys mid := by
      intro next hnext
      obtain ⟨other, hother, rfl⟩ := (declares_iff htext hparse hinner).1 hnext
      exact hmid.named other hother
    have hkeys : Keyed.keys (mid ++ [(entry.file, data)]) = Keyed.keys mid ++ [entry.file] :=
      List.map_append
    refine ⟨hmid.kept.complete hactive ⟨text, document, htext, hparse, inner, hinner, hsplices⟩
      hdeclares, ?_, ?_⟩
    · exact hkeys ▸ List.subset_append_of_subset_left _ hmid.subset
    · exact List.forall_mem_singleton.2 (hkeys ▸ List.mem_append_right _ List.mem_cons_self)
  case nil =>
    exact fun _ _ _ hkept => ⟨hkept, List.Subset.refl _, List.forall_mem_nil _⟩
  case cons =>
    intro active entry rest document done data mid document' result last hfetch _ hmerge hkept
    have hfirst := hfetch hkept
    have hlater := hmerge hfirst.kept
    refine ⟨hlater.kept, List.Subset.trans hfirst.subset hlater.subset, ?_⟩
    exact List.forall_mem_cons.2
      ⟨hlater.subset (hfirst.named entry List.mem_cons_self), hlater.named⟩

end Kept

section Alike

/-- What a fragment includes is not being processed, if it was not before the fragment was: it is
never the fragment itself. -/
theorem Expands.leads_not_mem {text : String} {fragment data : Node} {inner : List Entry}
    (h : Expands files entry.file data) (htext : files.lookup entry.file = some text)
    (hparse : Node.parseDocument text entry.file = .ok fragment)
    (hinner : entries fragment = .ok inner)
    (hfree : ∀ file, Leads files inner file → file ∉ active) :
    ∀ file, Leads files inner file → file ∉ active ++ [entry.file] := by
  intro file hleads hmem
  rcases List.mem_append.1 hmem with hold | hlast
  · exact hfree file hleads hold
  · obtain rfl := List.mem_singleton.1 hlast
    obtain ⟨next, hnext, hback⟩ := leads_iff.1 hleads
    have hdeclares := (declares_iff htext hparse hinner).2 ⟨next, hnext, rfl⟩
    exact h.not_isCircular (.head' hdeclares hback)

/-- A fragment is fetched if it is kept, or if its own includes are spliced into it. -/
theorem exists_fragment {text : String} {fragment data : Node} {inner : List Entry}
    (hactive : entry.file ∉ active) (hsound : Sound files done)
    (htext : files.lookup entry.file = some text)
    (hparse : Node.parseDocument text entry.file = .ok fragment)
    (hinner : entries fragment = .ok inner) (hdata : Splices files inner (fragment.erase key) data)
    (hsplice : done.lookup entry.file = none → ∃ done',
      splice files (active ++ [entry.file]) inner (fragment.erase key) done = .ok (data, done')) :
    ∃ done', Include.fragment files active entry done = .ok (data, done') := by
  have hactive' : ¬active.contains entry.file = true := by simpa using hactive
  cases hlookup : done.lookup entry.file with
  | some found =>
    have hexpands : Expands files entry.file data :=
      ⟨text, fragment, htext, hparse, inner, hinner, hdata⟩
    obtain rfl := hexpands.unique (hsound _ _ hlookup)
    exact ⟨done, fragment_of_kept hactive' hlookup⟩
  | none =>
    obtain ⟨done', hdone⟩ := hsplice hlookup
    refine ⟨done' ++ [(entry.file, data)], ?_⟩
    rw [fragment_of_document hactive' hlookup htext hparse, bind_eq_ok_iff]
    exact ⟨inner, hinner, bind_eq_ok_iff.2 ⟨_, hdone, rfl⟩⟩

/-- Fragments are spliced, whatever is kept, if none of those that they lead to is being
processed. -/
theorem Splices.exists_splice {result : Node} (h : Splices files named document result)
    (hkept : Kept files active done) (hfree : ∀ file, Leads files named file → file ∉ active) :
    ∃ done', splice files active named document done = .ok (result, done') := by
  induction h generalizing active done with
  | nil =>
    exact ⟨done, splice_nil⟩
  | @cons entry rest inner text fragment data document mid result htext hparse hinner hdata honto
      hrest ihInner ihRest =>
    have hexpands : Expands files entry.file data :=
      ⟨text, fragment, htext, hparse, inner, hinner, hdata⟩
    have hinnerFree := hexpands.leads_not_mem htext hparse hinner fun file hleads =>
      hfree file (.inner List.mem_cons_self htext hparse hinner hleads)
    obtain ⟨kept, hfetch⟩ := exists_fragment (hfree entry.file (.named List.mem_cons_self))
      hkept.sound htext hparse hinner hdata fun hnew => ihInner (hkept.activate hnew) hinnerFree
    have hkeeps := (keeps files).1 active entry done data kept hfetch hkept
    obtain ⟨last, hlast⟩ := ihRest hkeeps.kept fun file hleads => hfree file hleads.of_rest
    refine ⟨last, ?_⟩
    rw [splice_of_ok hfetch, bind_eq_ok_iff]
    exact ⟨mid, honto, hlast⟩

/-- What is kept is fetched wherever other fragments are kept. -/
theorem Kept.exists_fragment {found : Node} (h : Kept files active done)
    (hother : Kept files active other) (hfound : done.lookup entry.file = some found) :
    ∃ done', fragment files active entry other = .ok (found, done') := by
  have hmem : entry.file ∈ Keyed.keys done := Keyed.lookup_isSome_iff.1 (by simp [hfound])
  have hexpands : Expands files entry.file found := h.sound _ _ hfound
  obtain ⟨text, fragment, htext, hparse, inner, hinner, hdata⟩ := h.sound _ _ hfound
  have hfree := hexpands.leads_not_mem htext hparse hinner fun file hleads => by
    obtain ⟨next, hnext, hreach⟩ := leads_iff.1 hleads
    have hdeclares := (declares_iff htext hparse hinner).2 ⟨next, hnext, rfl⟩
    exact h.not_mem_active hmem (.head hdeclares hreach)
  exact Include.exists_fragment (h.apart _ hmem) hother.sound htext hparse hinner hdata
    fun hnew => hdata.exists_splice (hother.activate hnew) hfree

/-- Steps that give the same result, or fail alike. -/
theorem alike_cases {ε α β : Type} {x y : Except ε (α × β)}
    (h : Prod.fst <$> x = Prod.fst <$> y) :
    (∃ e, x = .error e ∧ y = .error e) ∨ ∃ a b c, x = .ok (a, b) ∧ y = .ok (a, c) := by
  cases x with
  | error e =>
    cases y with
    | error e' => exact .inl ⟨e, rfl, congrArg _ (Except.error.inj h).symm⟩
    | ok => cases h
  | ok first =>
    cases y with
    | error => cases h
    | ok second =>
      obtain ⟨a, b⟩ := first
      obtain ⟨a', c⟩ := second
      obtain rfl : a = a' := Except.ok.inj h
      exact .inr ⟨a, b, c, rfl, rfl⟩

/-- Whether it makes no difference for a fragment what is kept. -/
def FetchesAlike (files : Files) (active : List String) (entry : Entry) (done : Fragments) : Prop :=
  ∀ other, Kept files active done → Kept files active other →
    Prod.fst <$> fragment files active entry done = Prod.fst <$> fragment files active entry other

/-- Whether it makes no difference for splicing fragments what is kept. -/
def SplicesAlike (files : Files) (active : List String) (named : List Entry) (document : Node)
    (done : Fragments) : Prop :=
  ∀ other, Kept files active done → Kept files active other →
    Prod.fst <$> splice files active named document done =
      Prod.fst <$> splice files active named document other

theorem splicesAlike (files : Files) (active : List String) (named : List Entry) (document : Node)
    (done : Fragments) : SplicesAlike files active named document done := by
  refine (Steps.induction files (FetchesAlike files) (SplicesAlike files)
    ?circular ?kept ?read ?nil ?cons).2 active named document done
  case circular =>
    intro active entry done hactive other _ _
    rw [fragment_of_active hactive, fragment_of_active hactive]
  case kept =>
    intro active entry done hactive found hfound other hkept hother
    obtain ⟨done', hfetch⟩ := hkept.exists_fragment hother hfound
    rw [fragment_of_kept hactive hfound, hfetch]
    rfl
  case read =>
    intro active entry done hactive hnew ih other hkept hother
    cases hlookup : other.lookup entry.file with
    | some found =>
      obtain ⟨done', hfetch⟩ := hother.exists_fragment hkept hlookup
      rw [fragment_of_kept hactive hlookup, hfetch]
      rfl
    | none =>
      cases htext : files.lookup entry.file with
      | none =>
        rw [fragment_of_missing hactive hnew htext, fragment_of_missing hactive hlookup htext]
      | some text =>
        cases hparse : Node.parseDocument text entry.file with
        | error e =>
          rw [fragment_of_invalid hactive hnew htext hparse,
            fragment_of_invalid hactive hlookup htext hparse]
        | ok document =>
          rw [fragment_of_document hactive hnew htext hparse,
            fragment_of_document hactive hlookup htext hparse, map_bind, map_bind]
          refine bind_congr fun inner => ?_
          have hsplice := ih text htext (document.erase key) inner other (hkept.activate hnew)
            (hother.activate hlookup)
          rcases alike_cases hsplice with ⟨e, h, h'⟩ | ⟨data, kept, kept', h, h'⟩
          · rw [h, h']
          · rw [h, h']
            rfl
  case nil =>
    intro active document done other _ _
    rw [splice_nil, splice_nil]
    rfl
  case cons =>
    intro active entry rest document done ihFirst ihRest other hkept hother
    rcases alike_cases (ihFirst other hkept hother) with ⟨e, h, h'⟩ | ⟨data, kept, kept', h, h'⟩
    · rw [splice_of_error h, splice_of_error h']
    · have hkeeps := (keeps files).1 active entry done data kept h hkept
      have hkeeps' := (keeps files).1 active entry other data kept' h' hother
      rw [splice_of_ok h, splice_of_ok h', map_bind, map_bind]
      exact bind_congr fun document' => ihRest document' kept kept' hkeeps.kept hkeeps'.kept

end Alike

section Session

variable {done' : Fragments}

theorem kept_process {result : Node} (h : process files document done = .ok (result, done'))
    (hkept : Kept files [] done) : Kept files [] done' := by
  rw [process_eq] at h
  obtain ⟨named, -, hsplice⟩ := bind_eq_ok_iff.1 h
  exact ((keeps files).2 [] named _ done result done' hsplice hkept).kept

theorem kept_processAll {documents results : List Node}
    (h : processAll files documents done = .ok (results, done')) (hkept : Kept files [] done) :
    Kept files [] done' := by
  induction documents generalizing done results with
  | nil =>
    obtain ⟨rfl, rfl⟩ := Prod.mk.inj (Except.ok.inj h)
    exact hkept
  | cons document rest ih =>
    rw [processAll_cons] at h
    simp only [bind_eq_ok_iff, pure_eq_ok_iff] at h
    obtain ⟨⟨first, mid⟩, hfirst, ⟨others, last⟩, hothers, hend⟩ := h
    obtain ⟨rfl, rfl⟩ := Prod.mk.inj hend
    exact ih hothers (kept_process hfirst hkept)

theorem process_alike (hkept : Kept files [] done) (hother : Kept files [] other)
    (document : Node) :
    Prod.fst <$> process files document done = Prod.fst <$> process files document other := by
  rw [process_eq, process_eq, map_bind, map_bind]
  exact bind_congr fun named => splicesAlike files [] named _ done other hkept hother

/-- A session goes on as if no fragment were kept: a further document comes to what it comes to by
itself, or fails as it does by itself. Yet over the whole session no file is read twice. -/
theorem processAll_transparent {earlier results : List Node}
    (h : processAll files earlier [] = .ok (results, done)) (document : Node) :
    Prod.fst <$> process files document done = Prod.fst <$> process files document [] ∧
      ∀ depth, files.length ≤ depth →
        (processAllWithin files depth (earlier ++ [document]) []).Comes
            (processAll files (earlier ++ [document]) []) ∧
          (processAllWithin files depth (earlier ++ [document]) []).reads.Nodup :=
  ⟨process_alike (kept_processAll h kept_nil) kept_nil document, fun depth hdepth =>
    ⟨processAll_comes hdepth _ _, (processAllWithin_readsOnce depth _ _).nodup⟩⟩

/-- A fragment that includes another one. -/
def nestedFiles : Files := [("a.yml", "include: b.yml\n"), ("b.yml", "public: 3\n")]

/-- A document that includes the inner fragment, behind one that includes the outer one. -/
theorem nestedFiles_transparent : ∃ results done,
    processAll nestedFiles [documentWith "a.yml"] [] = .ok (results, done) ∧
      Keyed.keys done = ["b.yml", "a.yml"] ∧
      Prod.fst <$> process nestedFiles (documentWith "b.yml") done =
        Prod.fst <$> process nestedFiles (documentWith "b.yml") [] ∧
      (processAllWithin nestedFiles 2 [documentWith "a.yml", documentWith "b.yml"] []).reads =
        ["a.yml", "b.yml"] := by
  have hcompute : processAll nestedFiles [documentWith "a.yml"] [] = .ok
      ([.mapping [("kind", .scalar (.string "manual") (.fileStart "app.bst")),
          ("public", .scalar (.int 3) ⟨"b.yml", 1, 8⟩)] (.fileStart "app.bst")],
        [("b.yml", .mapping [("public", .scalar (.int 3) ⟨"b.yml", 1, 8⟩)] ⟨"b.yml", 1, 0⟩),
          ("a.yml", .mapping [("public", .scalar (.int 3) ⟨"b.yml", 1, 8⟩)] ⟨"a.yml", 1, 0⟩)]) := by
    decide +kernel
  refine ⟨_, _, hcompute, rfl, (processAll_transparent hcompute _).1, ?_⟩
  decide +kernel

end Session

end BuildGraph.Include
