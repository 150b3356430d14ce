import BuildGraph.Project.Include
import BuildGraph.Proofs.Outcome
import Mathlib.Data.List.Forall2

/-!
# What including comes to

`Processes` says what a document comes to with its fragments spliced in when every fragment is read
anew each time that it is named. The fragments that are kept while a document is processed are such
results (`Sound`), so keeping them changes nothing. Most of what is said of fetching and splicing
follows their outcome: `ok_induction` where they succeed, `error_induction` where they fail.
-/

namespace BuildGraph.Include

/-- Splicing the fragments that the entries name into a document, one after the other and each with
the fragments that it names spliced in first, comes to `result`. -/
inductive Splices (files : Files) : List Entry → Node → Node → Prop
  | nil {document : Node} : Splices files [] document document
  | cons {entry : Entry} {rest inner : List Entry} {text : String}
    {fragment data document mid result : Node} :
    files.lookup entry.file = some text → Node.parseDocument text entry.file = .ok fragment →
    entries fragment = .ok inner → Splices files inner (fragment.erase key) data →
    (Layer.fragment entry.file).onto entry.place data document = .ok mid →
    Splices files rest mid result → Splices files (entry :: rest) document result

/-- Splicing the fragments that a document names into it comes to `result`. -/
def Processes (files : Files) (document result : Node) : Prop :=
  ∃ named, entries document = .ok named ∧ Splices files named (document.erase key) result

/-- The fragment in a file is `data` once the fragments that it names are spliced in. -/
def Expands (files : Files) (file : String) (data : Node) : Prop :=
  ∃ text fragment, files.lookup file = some text ∧ Node.parseDocument text file = .ok fragment ∧
    Processes files fragment data

/-- Whether the fragments that are kept are what their files come to. -/
def Sound (files : Files) (done : Fragments) : Prop :=
  ∀ file data, done.lookup file = some data → Expands files file data

variable {files : Files} {done done' : Fragments}

theorem Splices.unique {named : List Entry} {document result other : Node}
    (h : Splices files named document result) (h' : Splices files named document other) :
    result = other := by
  induction h generalizing other with
  | nil =>
    cases h'
    rfl
  | cons htext hparse hinner _ honto _ ihInner ihRest =>
    cases h' with
    | cons htext' hparse' hinner' hdata' honto' hrest' =>
      obtain rfl := Option.some.inj (htext.symm.trans htext')
      obtain rfl := Except.ok.inj (hparse.symm.trans hparse')
      obtain rfl := Except.ok.inj (hinner.symm.trans hinner')
      obtain rfl := ihInner hdata'
      obtain rfl := Except.ok.inj (honto.symm.trans honto')
      exact ihRest hrest'

theorem Processes.unique {document result other : Node} (h : Processes files document result)
    (h' : Processes files document other) : result = other := by
  obtain ⟨named, hnamed, hresult⟩ := h
  obtain ⟨named', hnamed', hother⟩ := h'
  obtain rfl := Except.ok.inj (hnamed.symm.trans hnamed')
  exact hresult.unique hother

theorem Expands.unique {file : String} {data other : Node} (h : Expands files file data)
    (h' : Expands files file other) : data = other := by
  obtain ⟨text, fragment, htext, hparse, hdata⟩ := h
  obtain ⟨text', fragment', htext', hparse', hother⟩ := h'
  obtain rfl := Option.some.inj (htext.symm.trans htext')
  obtain rfl := Except.ok.inj (hparse.symm.trans hparse')
  exact hdata.unique hother

theorem Splices.of_expands {entry : Entry} {rest : List Entry} {data document mid result : Node}
    (hdata : Expands files entry.file data)
    (honto : (Layer.fragment entry.file).onto entry.place data document = .ok mid)
    (hrest : Splices files rest mid result) : Splices files (entry :: rest) document result := by
  obtain ⟨text, fragment, htext, hparse, inner, hinner, hsplices⟩ := hdata
  exact .cons htext hparse hinner hsplices honto hrest

theorem sound_nil : Sound files [] := by
  intro file data h
  cases h

theorem Sound.append {file : String} {data : Node} (h : Sound files done)
    (hdata : Expands files file data) : Sound files (done ++ [(file, data)]) := by
  intro other found hfound
  rcases Keyed.lookup_append_singleton hfound with hold | ⟨rfl, rfl⟩
  · exact h other found hold
  · exact hdata

/-- What splicing fragments into a document gives. -/
def Merges (files : Files) (active : List String) (named : List Entry) (document : Node)
    (done : Fragments) : Prop :=
  ∀ result done', splice files active named document done = .ok (result, done') →
    Sound files done → Splices files named document result ∧ Sound files done'

namespace Steps

section

variable {m : Type → Type} [Monad m] [Steps m] {active : List String} {entry : Entry} {text : String}
  {document : Node}

theorem fragment_of_active (h : active.contains entry.file = true) :
    (fragment files active entry done : m _) =
      fail (.circularInclude entry.file active entry.place) := by
  rw [fragment.eq_def, if_pos h]

theorem fragment_of_kept (h : ¬active.contains entry.file = true)
    (hkept : done.lookup entry.file = some document) :
    (fragment files active entry done : m _) = pure (document, done) := by
  rw [fragment.eq_def, if_neg h, hkept]

theorem fragment_of_missing (h : ¬active.contains entry.file = true)
    (hnew : done.lookup entry.file = none) (hmissing : files.lookup entry.file = none) :
    (fragment files active entry done : m _) =
      (do read entry.file; fail (.missingFragment entry.file entry.place)) := by
  rw [fragment.eq_def, if_neg h, hnew]
  refine bind_congr fun _ => ?_
  split
  · rfl
  · next text htext => exact absurd (hmissing.symm.trans htext) (by simp)

theorem fragment_of_invalid (h : ¬active.contains entry.file = true)
    (hnew : done.lookup entry.file = none) (htext : files.lookup entry.file = some text)
    {e : ParseError} (he : Node.parseDocument text entry.file = .error e) :
    (fragment files active entry done : m _) =
      (do read entry.file; fail (.invalidFragment entry.file entry.place e)) := by
  rw [fragment.eq_def, if_neg h, hnew]
  refine bind_congr fun _ => ?_
  split
  · next hmissing => exact absurd (hmissing.symm.trans htext) (by simp)
  · next other hother =>
    obtain rfl := Option.some.inj (htext.symm.trans hother)
    rw [he]

/-- The includes of a fragment that is read are spliced into it, and it is kept. -/
theorem fragment_of_document (h : ¬active.contains entry.file = true)
    (hnew : done.lookup entry.file = none) (htext : files.lookup entry.file = some text)
    (hparse : Node.parseDocument text entry.file = .ok document) :
    (fragment files active entry done : m _) = (do
      read entry.file
      enter do
        let inner ← of (entries document)
        let (data, kept) ←
          splice (fragment files (active ++ [entry.file])) inner (document.erase key) done
        pure (data, kept ++ [(entry.file, data)])) := by
  rw [fragment.eq_def, if_neg h, hnew]
  refine bind_congr fun _ => ?_
  split
  · next hmissing => exact absurd (hmissing.symm.trans htext) (by simp)
  · next other hother =>
    obtain rfl := Option.some.inj (htext.symm.trans hother)
    rw [hparse]

end

/-- What holds of fetching and of splicing fragments. A fragment that is read leaves one file fewer to
go into, and entries are spliced one after the other. -/
theorem induction (files : Files) (fetch : List String → Entry → Fragments → Prop)
    (merge : List String → List Entry → Node → Fragments → Prop)
    (circular : ∀ active entry done, active.contains entry.file = true → fetch active entry done)
    (kept : ∀ active entry done, ¬active.contains entry.file = true →
      ∀ document, done.lookup entry.file = some document → fetch active entry done)
    (read : ∀ active entry done, ¬active.contains entry.file = true →
      done.lookup entry.file = none → (∀ text, files.lookup entry.file = some text →
        ∀ document inner, merge (active ++ [entry.file]) inner document done) →
      fetch active entry done)
    (nil : ∀ active document done, merge active [] document done)
    (cons : ∀ active entry rest document done, fetch active entry done →
      (∀ document kept, merge active rest document kept) →
      merge active (entry :: rest) document done) :
    (∀ active entry done, fetch active entry done) ∧
      ∀ active named document done, merge active named document done := by
  have hmerge : ∀ active, (∀ entry done, fetch active entry done) →
      ∀ named document done, merge active named document done := by
    intro active hfetch named
    induction named with
    | nil => exact nil active
    | cons entry rest ih =>
      exact fun document done => cons active entry rest document done (hfetch entry done) ih
  have hfetch : ∀ active entry done, fetch active entry done :=
    fragment.induct files fetch circular kept fun active entry done hactive hnew ih =>
      read active entry done hactive hnew fun text htext document inner =>
        hmerge (active ++ [entry.file]) (ih text htext) inner document done
  exact ⟨hfetch, fun active => hmerge active (hfetch active)⟩

@[simp] theorem of_eq {α : Type} (outcome : Except LoadError α) :
    (of outcome : Except LoadError α) = outcome := by
  cases outcome <;> rfl

end Steps

section Fragment

variable {active : List String} {entry : Entry} {text : String} {document : Node}

theorem fragment_of_active (h : active.contains entry.file = true) :
    fragment files active entry done = .error (.circularInclude entry.file active entry.place) :=
  Steps.fragment_of_active h

theorem fragment_of_kept (h : ¬active.contains entry.file = true)
    (hkept : done.lookup entry.file = some document) :
    fragment files active entry done = .ok (document, done) :=
  Steps.fragment_of_kept h hkept

theorem fragment_of_missing (h : ¬active.contains entry.file = true)
    (hnew : done.lookup entry.file = none) (hmissing : files.lookup entry.file = none) :
    fragment files active entry done = .error (.missingFragment entry.file entry.place) :=
  Steps.fragment_of_missing h hnew hmissing

theorem fragment_of_invalid (h : ¬active.contains entry.file = true)
    (hnew : done.lookup entry.file = none) (htext : files.lookup entry.file = some text)
    {e : ParseError} (he : Node.parseDocument text entry.file = .error e) :
    fragment files active entry done = .error (.invalidFragment entry.file entry.place e) :=
  Steps.fragment_of_invalid h hnew htext he

theorem fragment_of_document (h : ¬active.contains entry.file = true)
    (hnew : done.lookup entry.file = none) (htext : files.lookup entry.file = some text)
    (hparse : Node.parseDocument text entry.file = .ok document) :
    fragment files active entry done = (do
      let inner ← entries document
      let (data, kept) ← splice files (active ++ [entry.file]) inner (document.erase key) done
      pure (data, kept ++ [(entry.file, data)])) := by
  rw [← Steps.of_eq (entries document)]
  exact Steps.fragment_of_document h hnew htext hparse

theorem splice_nil : splice files active [] document done = .ok (document, done) := rfl

/-- The fragment of the first entry is spliced in before those of the others. -/
theorem splice_cons {rest : List Entry} :
    splice files active (entry :: rest) document done = (do
      let (data, kept) ← fragment files active entry done
      let document ← (Layer.fragment entry.file).onto entry.place data document
      splice files active rest document kept) := by
  rw [splice, Steps.splice]
  simp only [Steps.of_eq]
  rfl

/-- Behind the fragment of its first entry, a list of entries goes on with the rest. -/
theorem splice_of_ok {rest : List Entry} {data : Node} {kept : Fragments}
    (h : fragment files active entry done = .ok (data, kept)) :
    splice files active (entry :: rest) document done =
      (Layer.fragment entry.file).onto entry.place data document >>= fun document =>
        splice files active rest document kept := by
  rw [splice_cons, h]
  rfl

theorem splice_of_error {rest : List Entry} {e : LoadError}
    (h : fragment files active entry done = .error e) :
    splice files active (entry :: rest) document done = .error e := by
  rw [splice_cons, h]
  rfl

theorem process_eq : process files document done = (do
    let named ← entries document
    splice files [] named (document.erase key) done) := by
  rw [process, Steps.process, Steps.of_eq]
  rfl

theorem processAll_cons {rest : List Node} : processAll files (document :: rest) done = (do
    let (first, mid) ← process files document done
    let (others, last) ← processAll files rest mid
    pure (first :: others, last)) :=
  rfl

end Fragment

section Induction

variable (files : Files)

/-- What holds where fragments are fetched and spliced with success: a fragment is kept or read, and
entries are spliced one after the other. -/
theorem ok_induction (fetch : List String → Entry → Fragments → Node → Fragments → Prop)
    (merge : List String → List Entry → Node → Fragments → Node → Fragments → Prop)
    (kept : ∀ active entry done data, entry.file ∉ active → done.lookup entry.file = some data →
      fetch active entry done data done)
    (read : ∀ active entry done text document inner data kept, entry.file ∉ active →
      done.lookup entry.file = none → files.lookup entry.file = some text →
      Node.parseDocument text entry.file = .ok document → entries document = .ok inner →
      splice files (active ++ [entry.file]) inner (document.erase key) done = .ok (data, kept) →
      merge (active ++ [entry.file]) inner (document.erase key) done data kept →
      fetch active entry done data (kept ++ [(entry.file, data)]))
    (nil : ∀ active document done, merge active [] document done document done)
    (cons : ∀ active entry rest document done data mid document' result last,
      fetch active entry done data mid →
      (Layer.fragment entry.file).onto entry.place data document = .ok document' →
      merge active rest document' mid result last →
      merge active (entry :: rest) document done result last) :
    (∀ active entry done data done',
      fragment files active entry done = .ok (data, done') → fetch active entry done data done') ∧
    ∀ active named document done result done',
      splice files active named document done = .ok (result, done') →
      merge active named document done result done' := by
  refine Steps.induction files _ _ ?circular ?kept ?read ?nil ?cons
  case circular =>
    intro active entry done hactive data done' h
    rw [fragment_of_active hactive] at h
    cases h
  case kept =>
    intro active entry done hactive found hfound data done' h
    rw [fragment_of_kept hactive hfound] at h
    obtain ⟨rfl, rfl⟩ := Prod.mk.inj (Except.ok.inj h)
    exact kept active entry done found (by simpa using hactive) hfound
  case read =>
    intro active entry done hactive hnew ih data done' h
    cases htext : files.lookup entry.file with
    | none =>
      rw [fragment_of_missing hactive hnew htext] at h
      cases h
    | some text =>
      cases hparse : Node.parseDocument text entry.file with
      | error e =>
        rw [fragment_of_invalid hactive hnew htext hparse] at h
        cases h
      | ok document =>
        rw [fragment_of_document hactive hnew htext hparse] at h
        simp only [bind_eq_ok_iff, pure_eq_ok_iff] at h
        obtain ⟨inner, hinner, ⟨result, mid⟩, hsplice, hend⟩ := h
        obtain ⟨rfl, rfl⟩ := Prod.mk.inj hend
        exact read active entry done text document inner result mid (by simpa using hactive) hnew
          htext hparse hinner hsplice (ih text htext (document.erase key) inner result mid hsplice)
  case nil =>
    intro active document done result done' h
    rw [splice_nil] at h
    obtain ⟨rfl, rfl⟩ := Prod.mk.inj (Except.ok.inj h)
    exact nil active document done
  case cons =>
    intro active entry rest document done ihFirst ihRest result done' h
    rw [splice_cons] at h
    simp only [bind_eq_ok_iff] at h
    obtain ⟨⟨data, mid⟩, hdata, document', honto, hrest⟩ := h
    exact cons active entry rest document done data mid document' result done'
      (ihFirst data mid hdata) honto (ihRest document' mid result done' hrest)

/-- What holds where fetching and splicing fragments fails, wherever that is. -/
theorem error_induction (fetch : List String → Entry → LoadError → Prop)
    (merge : List String → List Entry → LoadError → Prop)
    (circular : ∀ active (entry : Entry), entry.file ∈ active →
      fetch active entry (.circularInclude entry.file active entry.place))
    (missing : ∀ active (entry : Entry),
      fetch active entry (.missingFragment entry.file entry.place))
    (invalid : ∀ active (entry : Entry) e,
      fetch active entry (.invalidFragment entry.file entry.place e))
    (unnamed : ∀ active entry document e, entries document = .error e → fetch active entry e)
    (read : ∀ active entry text document inner e, files.lookup entry.file = some text →
      Node.parseDocument text entry.file = .ok document → entries document = .ok inner →
      merge (active ++ [entry.file]) inner e → fetch active entry e)
    (first : ∀ active entry rest e, fetch active entry e → merge active (entry :: rest) e)
    (layer : ∀ active (entry : Entry) rest data document e,
      (Layer.fragment entry.file).onto entry.place data document = .error e →
      merge active (entry :: rest) e)
    (later : ∀ active entry rest e, merge active rest e → merge active (entry :: rest) e) :
    ∀ active named document done e,
      splice files active named document done = .error e → merge active named e := by
  suffices hall : (∀ active entry done, ∀ e,
      fragment files active entry done = .error e → fetch active entry e) ∧
      ∀ active named document done, ∀ e,
        splice files active named document done = .error e → merge active named e from hall.2
  refine Steps.induction files _ _ ?circular ?kept ?read ?nil ?cons
  case circular =>
    intro active entry done hactive e h
    rw [fragment_of_active hactive] at h
    cases h
    exact circular active entry (by simpa using hactive)
  case kept =>
    intro active entry done hactive found hfound e h
    rw [fragment_of_kept hactive hfound] at h
    cases h
  case read =>
    intro active entry done hactive hnew ih e h
    cases htext : files.lookup entry.file with
    | none =>
      rw [fragment_of_missing hactive hnew htext] at h
      cases h
      exact missing active entry
    | some text =>
      cases hparse : Node.parseDocument text entry.file with
      | error cause =>
        rw [fragment_of_invalid hactive hnew htext hparse] at h
        cases h
        exact invalid active entry cause
      | ok document =>
        rw [fragment_of_document hactive hnew htext hparse, bind_eq_error_iff] at h
        rcases h with hentries | ⟨inner, hinner, h⟩
        · exact unnamed active entry document e hentries
        · rcases bind_eq_error_iff.1 h with hsplice | ⟨spliced, -, hpure⟩
          · exact read active entry text document inner e htext hparse hinner
              (ih text htext (document.erase key) inner e hsplice)
          · cases hpure
  case nil =>
    intro active document done e h
    rw [splice_nil] at h
    cases h
  case cons =>
    intro active entry rest document done ihFirst ihRest e h
    rw [splice_cons, bind_eq_error_iff] at h
    rcases h with hfirst | ⟨⟨data, mid⟩, -, h⟩
    · exact first active entry rest e (ihFirst e hfirst)
    · rcases bind_eq_error_iff.1 h with honto | ⟨document', -, hrest⟩
      · exact layer active entry rest data document e honto
      · exact later active entry rest e (ihRest document' mid e hrest)

end Induction

theorem merges (active : List String) (named : List Entry) (document : Node) (done : Fragments) :
    Merges files active named document done := by
  refine (ok_induction files
    (fun _ entry done data done' => Sound files done →
      Expands files entry.file data ∧ Sound files done')
    (fun _ named document done result done' => Sound files done →
      Splices files named document result ∧ Sound files done')
    ?kept ?read ?nil ?cons).2 active named document done
  case kept => exact fun _ _ _ _ _ hfound hsound => ⟨hsound _ _ hfound, hsound⟩
  case read =>
    intro active entry done text document inner data kept _ _ htext hparse hinner _ hmerge hsound
    obtain ⟨hsplices, hkept⟩ := hmerge hsound
    have hexpands : Expands files entry.file data :=
      ⟨text, document, htext, hparse, inner, hinner, hsplices⟩
    exact ⟨hexpands, hkept.append hexpands⟩
  case nil => exact fun _ _ _ hsound => ⟨.nil, hsound⟩
  case cons =>
    intro active entry rest document done data mid document' result last hfetch honto hmerge hsound
    obtain ⟨hexpands, hmid⟩ := hfetch hsound
    obtain ⟨hsplices, hlast⟩ := hmerge hmid
    exact ⟨.of_expands hexpands honto hsplices, hlast⟩

/-- Processing a document with sound fragments gives what reading all of them anew would give. -/
theorem process_processes {document result : Node}
    (h : process files document done = .ok (result, done')) (hsound : Sound files done) :
    Processes files document result ∧ Sound files done' := by
  rw [process_eq] at h
  obtain ⟨named, hnamed, hsplice⟩ := bind_eq_ok_iff.1 h
  obtain ⟨hsplices, hdone⟩ := merges [] named (document.erase key) done result done' hsplice hsound
  exact ⟨⟨named, hnamed, hsplices⟩, hdone⟩

theorem processAll_processes {documents results : List Node}
    (h : processAll files documents done = .ok (results, done')) (hsound : Sound files done) :
    List.Forall₂ (Processes files) documents results ∧ Sound files done' := by
  induction documents generalizing done results with
  | nil =>
    obtain ⟨rfl, rfl⟩ := Prod.mk.inj (Except.ok.inj h)
    exact ⟨.nil, hsound⟩
  | cons document rest ih =>
    rw [processAll_cons] at h
    simp only [bind_eq_ok_iff, pure_eq_ok_iff] at h
    obtain ⟨⟨first, mid⟩, hfirst, ⟨others, last⟩, hothers, hend⟩ := h
    obtain ⟨rfl, rfl⟩ := Prod.mk.inj hend
    obtain ⟨hprocesses, hmid⟩ := process_processes hfirst hsound
    obtain ⟨hrest, hlast⟩ := ih hothers hmid
    exact ⟨.cons hprocesses hrest, hlast⟩

end BuildGraph.Include
