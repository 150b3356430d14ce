import BuildGraph.Proofs.Graph.Reach
import BuildGraph.Proofs.Project.Fragment
import BuildGraph.Proofs.Project.Run
import BuildGraph.Proofs.Yaml.Nesting
import Mathlib.Data.List.Chain
import Mathlib.Logic.Relation

/-!
# Circular includes

The includes of fragments as a relation on files (`Declares`). Processing a document succeeds only
if no fragment that it includes includes itself, and it fails with a circle only if one does: the
files that are being processed are then a walk along includes that comes back to one of them
(`Circular`).
-/

namespace BuildGraph.Include

/-- Whether the fragment in a file names another file. -/
def Declares (files : Files) (file other : String) : Prop :=
  ∃ text fragment inner, files.lookup file = some text ∧
    Node.parseDocument text file = .ok fragment ∧ entries fragment = .ok inner ∧
    ∃ entry ∈ inner, entry.file = other

/-- Whether the fragment in a file includes itself, by way of other fragments or at once. -/
def IsCircular (files : Files) (file : String) : Prop :=
  Relation.TransGen (Declares files) file file

variable {files : Files} {named : List Entry} {file : String} {document result : Node}

section Leads

theorem declares_iff {text other : String} {fragment : Node} {inner : List Entry}
    (htext : files.lookup file = some text) (hparse : Node.parseDocument text file = .ok fragment)
    (hinner : entries fragment = .ok inner) :
    Declares files file other ↔ ∃ entry ∈ inner, entry.file = other := by
  constructor
  · rintro ⟨text', fragment', inner', htext', hparse', hinner', hentry⟩
    obtain rfl := Option.some.inj (htext.symm.trans htext')
    obtain rfl := Except.ok.inj (hparse.symm.trans hparse')
    obtain rfl := Except.ok.inj (hinner.symm.trans hinner')
    exact hentry
  · exact fun hentry => ⟨text, fragment, inner, htext, hparse, hinner, hentry⟩

theorem Leads.of_reflTransGen {entry : Entry} (hentry : entry ∈ named)
    (h : Relation.ReflTransGen (Declares files) entry.file file) : Leads files named file := by
  generalize hstart : entry.file = start at h
  induction h using Relation.ReflTransGen.head_induction_on generalizing named entry with
  | refl => exact hstart ▸ .named hentry
  | head hdeclares _ ih =>
    obtain ⟨text, fragment, inner, htext, hparse, hinner, next, hnext, rfl⟩ := hdeclares
    subst hstart
    exact .inner hentry htext hparse hinner (ih hnext rfl)

theorem leads_iff : Leads files named file ↔
    ∃ entry ∈ named, Relation.ReflTransGen (Declares files) entry.file file := by
  constructor
  · intro h
    induction h with
    | named hentry => exact ⟨_, hentry, .refl⟩
    | inner hentry htext hparse hinner _ ih =>
      obtain ⟨next, hnext, hreach⟩ := ih
      exact ⟨_, hentry, .head ⟨_, _, _, htext, hparse, hinner, next, hnext, rfl⟩ hreach⟩
  · rintro ⟨entry, hentry, hreach⟩
    exact .of_reflTransGen hentry hreach

end Leads

section Splices

/-- What is spliced is made of finitely many fragments, so none of them includes itself. -/
theorem Splices.not_isCircular (h : Splices files named document result) :
    Leads files named file → ¬IsCircular files file := by
  suffices hclear : ∀ entry ∈ named, ∀ file,
      Relation.ReflTransGen (Declares files) entry.file file → ¬IsCircular files file by
    intro hleads
    obtain ⟨entry, hentry, hreach⟩ := leads_iff.1 hleads
    exact hclear entry hentry file hreach
  induction h with
  | nil => exact List.forall_mem_nil _
  | @cons entry rest inner text fragment data document mid result htext hparse hinner _ _ _
      ihInner ihRest =>
    refine List.forall_mem_cons.2 ⟨not_transGen_of_next fun next hnext => ?_, ihRest⟩
    obtain ⟨other, hother, rfl⟩ := (declares_iff htext hparse hinner).1 hnext
    exact ihInner other hother

theorem Expands.not_isCircular {data : Node} (h : Expands files file data) :
    ¬IsCircular files file := by
  obtain ⟨text, fragment, htext, hparse, inner, hinner, hsplices⟩ := h
  refine not_transGen_of_next (fun next hnext other hreach => ?_) file .refl
  obtain ⟨entry, hentry, rfl⟩ := (declares_iff htext hparse hinner).1 hnext
  exact hsplices.not_isCircular (leads_iff.2 ⟨entry, hentry, hreach⟩)

/-- No fragment brings includes with it. -/
theorem Splices.get?_key (h : Splices files named document result)
    (hdocument : document.get? key = none) : result.get? key = none := by
  induction h with
  | nil => exact hdocument
  | cons _ hparse _ _ honto _ ihInner ihRest =>
    have hkeys := Node.hasDistinctKeys_of_parseDocument hparse
    have hdata := ihInner (Node.get?_erase_self hkeys key)
    exact ihRest (Node.get?_eq_none_of_onto honto hdata hdocument)

end Splices

section Circular

/-- Whether an error shows a walk along includes from one of the entries, that comes back to a file
on it or to one of those that are being processed. -/
def Circular (files : Files) (active : List String) (named : List Entry) (e : LoadError) : Prop :=
  ∃ file chain place, e = .circularInclude file (active ++ chain) place ∧ file ∈ active ++ chain ∧
    (chain ++ [file]).IsChain (Declares files) ∧
    ∃ entry ∈ named, (chain ++ [file]).head? = some entry.file

variable {active : List String} {entry : Entry} {e : LoadError}

theorem Circular.mono {other : List Entry} (h : Circular files active named e)
    (hsub : named ⊆ other) : Circular files active other e := by
  obtain ⟨file, chain, place, he, hmem, hchain, start, hstart, hhead⟩ := h
  exact ⟨file, chain, place, he, hmem, hchain, start, hsub hstart, hhead⟩

/-- A walk from what the fragment of an entry names is one from the entry. -/
theorem Circular.prepend {text : String} {fragment : Node} {inner : List Entry}
    (h : Circular files (active ++ [entry.file]) inner e)
    (htext : files.lookup entry.file = some text)
    (hparse : Node.parseDocument text entry.file = .ok fragment)
    (hinner : entries fragment = .ok inner) : Circular files active [entry] e := by
  obtain ⟨file, chain, place, he, hmem, hchain, next, hnext, hhead⟩ := h
  have hdeclares : Declares files entry.file next.file :=
    ⟨text, fragment, inner, htext, hparse, hinner, next, hnext, rfl⟩
  rw [List.append_assoc, List.singleton_append] at he hmem
  refine ⟨file, entry.file :: chain, place, he, hmem, ?_, entry, List.mem_singleton_self _, rfl⟩
  rw [List.cons_append, List.isChain_cons]
  refine ⟨fun start hstart => ?_, hchain⟩
  obtain rfl := Option.some.inj (hhead.symm.trans hstart)
  exact hdeclares

theorem reason_of_entries (h : entries document = .error e) : e.reason = .invalidData := by
  obtain ⟨item, -, hread⟩ := exists_of_mapM_eq_error h
  rw [Entry.read] at hread
  split at hread
  · split at hread <;> cases hread
    rfl
  · cases hread
    rfl

theorem reason_of_onto {layer : Layer} {place : Provenance} {data : Node}
    (h : layer.onto place data document = .error e) : e.reason = .illegalComposite := by
  obtain ⟨cause, -, rfl⟩ := mapError_eq_error_iff.1 h
  rfl

/-- Splicing fails with a circle only where there is one. -/
theorem splice_circular {done : Fragments}
    (h : splice files active named document done = .error e)
    (hreason : e.reason = .circularDependency) : Circular files active named e := by
  refine error_induction files
    (fun active entry e => e.reason = .circularDependency → Circular files active [entry] e)
    (fun active named e => e.reason = .circularDependency → Circular files active named e)
    ?circular nofun nofun ?unnamed ?read ?first ?layer ?later active named document done e h hreason
  case circular =>
    intro active entry hmem _
    exact ⟨entry.file, [], entry.place, by rw [List.append_nil], by simpa using hmem,
      .singleton _, entry, List.mem_singleton_self _, rfl⟩
  case unnamed =>
    intro active entry document e hentries hreason
    cases (reason_of_entries hentries).symm.trans hreason
  case read =>
    intro active entry text document inner e htext hparse hinner hmerge hreason
    exact (hmerge hreason).prepend htext hparse hinner
  case first =>
    exact fun active entry rest e hfetch hreason =>
      (hfetch hreason).mono (List.cons_subset_cons _ (List.nil_subset _))
  case layer =>
    intro active entry rest data document e honto hreason
    cases (reason_of_onto honto).symm.trans hreason
  case later =>
    exact fun active entry rest e hmerge hreason =>
      (hmerge hreason).mono (List.subset_cons_self _ _)

end Circular

section Process

variable {done done' : Fragments} {e : LoadError}

theorem message_circularInclude {chain : List String} (h : chain ≠ []) (file : String)
    (place : Provenance) : (LoadError.circularInclude file chain place).message =
      located place ("Circular include of " ++ LoadError.quoted file ++ " (" ++
        LoadError.arrows (chain ++ [file]) ++ ")") := by
  have hmessage : (LoadError.circularInclude file chain place).message =
      located place ("Circular include of " ++ LoadError.quoted file ++ " (" ++
        LoadError.arrows chain ++ " -> " ++ file ++ ")") := rfl
  have hjoin : LoadError.arrows (chain ++ [file]) = LoadError.arrows chain ++ " -> " ++ file := by
    rw [LoadError.arrows, String.intercalate_append_of_ne_nil h (List.cons_ne_nil _ _),
      String.intercalate_singleton, LoadError.arrows]
  rw [hmessage, hjoin]
  simp only [String.append_assoc]

/-- A circle that is reported is one of fragments that the entries lead to. -/
theorem Circular.exists_isCircular (h : Circular files [] named e) :
    ∃ file, Leads files named file ∧ IsCircular files file := by
  obtain ⟨file, chain, place, -, hmem, hchain, entry, hentry, hhead⟩ := h
  refine ⟨file, leads_iff.2 ⟨entry, hentry, ?_⟩, ?_⟩
  · obtain ⟨rest, hrest⟩ := List.head?_eq_some_iff.1 hhead
    rw [hrest] at hchain
    exact List.relationReflTransGen_of_exists_isChain_cons rest hchain (by simp [← hrest])
  · obtain ⟨before, after, rfl⟩ := List.append_of_mem hmem
    rw [List.nil_append] at hmem
    rw [List.append_assoc] at hchain
    have hback : (file :: (after ++ [file])).IsChain (Declares files) := hchain.right_of_append
    obtain ⟨next, rest, hrest⟩ := List.exists_cons_of_ne_nil (show after ++ [file] ≠ [] by simp)
    rw [hrest, List.isChain_cons_cons] at hback
    refine .head' hback.1 ?_
    exact List.relationReflTransGen_of_exists_isChain_cons rest hback.2 (by simp [← hrest])

/-- What processing a document comes to, as to circles among the fragments that it includes. -/
structure DetectsCircles (files : Files) (document : Node) (done : Fragments) : Prop where
  /-- It ends within as many fragments inside one another as there are files. -/
  ends : ∀ depth, files.length ≤ depth →
    (processWithin files depth document done).Comes (process files document done)
  /-- It succeeds only without a circle, and leaves no includes behind. -/
  acyclic : ∀ result done', process files document done = .ok (result, done') →
    (∀ file, Includes files document file → ¬IsCircular files file) ∧ result.get? key = none
  /-- The circle that it reports is a walk along includes, the last of which leads back. -/
  walk : ∀ e, process files document done = .error e → e.reason = .circularDependency →
    ∃ file chain place, e = .circularInclude file chain place ∧ file ∈ chain ∧
      (chain ++ [file]).IsChain (Declares files) ∧
      (∃ named, entries document = .ok named ∧
        ∃ entry ∈ named, (chain ++ [file]).head? = some entry.file) ∧
      e.message = located place ("Circular include of " ++ LoadError.quoted file ++ " (" ++
        LoadError.arrows (chain ++ [file]) ++ ")")
  /-- With a circle it fails. -/
  refused : (∃ file, Includes files document file ∧ IsCircular files file) →
    ∃ e, process files document done = .error e
  /-- Without one it does not fail for one. -/
  allowed : (∀ file, Includes files document file → ¬IsCircular files file) →
    ∀ e, process files document done = .error e → e.reason ≠ .circularDependency

theorem process_acyclic (hsound : Sound files done)
    (h : process files document done = .ok (result, done')) :
    ∀ file, Includes files document file → ¬IsCircular files file := by
  obtain ⟨⟨named, hnamed, hsplices⟩, -⟩ := process_processes h hsound
  rintro file ⟨named', hnamed', hleads⟩
  obtain rfl := Except.ok.inj (hnamed.symm.trans hnamed')
  exact hsplices.not_isCircular hleads

theorem process_circular (h : process files document done = .error e)
    (hreason : e.reason = .circularDependency) :
    ∃ named, entries document = .ok named ∧ Circular files [] named e := by
  rw [process_eq, bind_eq_error_iff] at h
  rcases h with hentries | ⟨named, hnamed, hsplice⟩
  · cases (reason_of_entries hentries).symm.trans hreason
  · exact ⟨named, hnamed, splice_circular hsplice hreason⟩

/-- Processing a document in a session that has succeeded so far finds the circles among the
fragments that it includes, and no others. -/
theorem process_detectsCircles {documents results : List Node}
    (h : processAll files documents [] = .ok (results, done)) (hkeys : document.HasDistinctKeys) :
    DetectsCircles files document done := by
  have hsound : Sound files done := (processAll_processes h sound_nil).2
  refine ⟨fun depth hdepth => process_comes hdepth document done, fun result done' hok => ?acyclic,
    fun e he hreason => ?walk, ?refused, fun hclear e he hreason => ?allowed⟩
  case acyclic =>
    obtain ⟨⟨named, -, hsplices⟩, -⟩ := process_processes hok hsound
    exact ⟨process_acyclic hsound hok, hsplices.get?_key (Node.get?_erase_self hkeys key)⟩
  case walk =>
    obtain ⟨named, hnamed, file, chain, place, he, hmem, hchain, hstart⟩ :=
      process_circular he hreason
    exact ⟨file, chain, place, he, hmem, hchain, ⟨named, hnamed, hstart⟩,
      he ▸ message_circularInclude (List.ne_nil_of_mem hmem) file place⟩
  case refused =>
    rintro ⟨file, hincludes, hcircular⟩
    cases hprocess : process files document done with
    | error e => exact ⟨e, rfl⟩
    | ok final => exact absurd hcircular (process_acyclic hsound hprocess file hincludes)
  case allowed =>
    obtain ⟨named, hnamed, hcircular⟩ := process_circular he hreason
    obtain ⟨file, hleads, hfile⟩ := hcircular.exists_isCircular
    exact hclear file ⟨named, hnamed, hleads⟩ hfile

/-- Two fragments that include each other, and one that includes nothing. -/
def circleFiles : Files :=
  [("a.yml", "include: b.yml\n"), ("b.yml", "include: a.yml\n"), ("c.yml", "public: 3\n")]

/-- A document that includes a fragment. -/
def documentWith (file : String) : Node :=
  let place : Provenance := .fileStart "app.bst"
  .mapping [("kind", .scalar (.string "manual") place),
    ("include", .scalar (.string file) place)] place

theorem circleFiles_detectsCircles : ∃ results done,
    processAll circleFiles [documentWith "c.yml"] [] = .ok (results, done) ∧
      DetectsCircles circleFiles (documentWith "a.yml") done ∧
      process circleFiles (documentWith "a.yml") done =
        .error (.circularInclude "a.yml" ["a.yml", "b.yml"] ⟨"b.yml", 1, 9⟩) := by
  have hkeys : (documentWith "a.yml").HasDistinctKeys := by
    simp [documentWith, Node.HasDistinctKeys, Node.MembersHaveDistinctKeys, Keyed.keys]
  have hcompute : processAll circleFiles [documentWith "c.yml"] [] = .ok
      ([.mapping [("kind", .scalar (.string "manual") (.fileStart "app.bst")),
        ("public", .scalar (.int 3) ⟨"c.yml", 1, 8⟩)] (.fileStart "app.bst")],
      [("c.yml", .mapping [("public", .scalar (.int 3) ⟨"c.yml", 1, 8⟩)] ⟨"c.yml", 1, 0⟩)]) := by
    decide +kernel
  refine ⟨_, _, hcompute, process_detectsCircles hcompute hkeys, ?_⟩
  decide +kernel

end Process

end BuildGraph.Include
