import BuildGraph.Project.Discovery
import BuildGraph.Proofs.Element.Declaration
import BuildGraph.Proofs.Element.Kept
import BuildGraph.Proofs.Project.Fragment

/-!
# The element of a file

`Project.Reads` says which element the text of a file declares, whatever was read before it. This is
the element that is loaded from the file at any point of a discovery. Its data is composed of the
documents in the file and in the fragments that it includes (`Project.Reads.allData`).
-/

namespace BuildGraph

/-- Splicing the fragments that the embeds of a stack name into these; other documents stay as they
are. -/
inductive Element.SplicesEmbeds (files : Files) (document : Node) : Node → Prop
  | stack {items spliced : List Node} {place : Provenance} :
    document.getString? kindKey = .ok (some stackKind) →
    document.get? embedsKey = some (.sequence items place) →
    List.Forall₂ (Include.Processes files) items spliced →
    SplicesEmbeds files document (document.insert embedsKey (.sequence spliced place))
  | other {kind : Option String} : document.getString? kindKey = .ok kind →
    (kind = some stackKind → ∀ items place, document.get? embedsKey ≠ some (.sequence items place)) →
    SplicesEmbeds files document document

/-- Whether a file declares an element. -/
def Project.Reads (project : Project) (file : String) (e : Element) : Prop :=
  ∃ text document spliced whole name, project.files.lookup file = some text ∧
    Node.parseDocument text file = .ok document ∧
    Include.Processes project.files document spliced ∧
    Element.SplicesEmbeds project.files spliced whole ∧ Path.stem? file = some name ∧
    Element.ofDocument project.archs .file name file whole = .ok e ∧ e.checkVariantCount = .ok ()

/-- Whether the file of an element includes the fragment in another file: the document in it does, or
if that is a stack, one of its embeds. -/
inductive Project.Includes (project : Project) (file fragment : String) : Prop
  | document {text : String} {document : Node} :
    project.files.lookup file = some text → Node.parseDocument text file = .ok document →
    Include.Includes project.files document fragment → Includes project file fragment
  | embed {text : String} {document spliced item : Node} {items : List Node} {place : Provenance} :
    project.files.lookup file = some text → Node.parseDocument text file = .ok document →
    Include.Processes project.files document spliced →
    spliced.getString? Element.kindKey = .ok (some Element.stackKind) →
    spliced.get? Element.embedsKey = some (.sequence items place) → item ∈ items →
    Include.Includes project.files item fragment → Includes project file fragment

namespace Element

variable {files : Files} {project : Project}

theorem SplicesEmbeds.unique {document result other : Node} (h : SplicesEmbeds files document result)
    (h' : SplicesEmbeds files document other) : result = other := by
  cases h with
  | stack hkind hembeds hspliced =>
    cases h' with
    | stack hkind' hembeds' hspliced' =>
      obtain ⟨rfl, rfl⟩ := Node.sequence.inj (Option.some.inj (hembeds.symm.trans hembeds'))
      have hunique : Relator.RightUnique (Include.Processes files) :=
        fun _ _ _ hresult hother => hresult.unique hother
      rw [hunique.forall₂ hspliced hspliced']
    | other hkind' hnone =>
      obtain rfl := Except.ok.inj (hkind.symm.trans hkind')
      exact absurd hembeds (hnone rfl _ _)
  | other hkind hnone =>
    cases h' with
    | stack hkind' hembeds' hspliced' =>
      obtain rfl := Except.ok.inj (hkind.symm.trans hkind')
      exact absurd hembeds' (hnone rfl _ _)
    | other => rfl

theorem includeEmbeds_splices {document result : Node} {done done' : Fragments}
    (h : includeEmbeds files document done = .ok (result, done'))
    (hsound : Include.Sound files done) :
    SplicesEmbeds files document result ∧ Include.Sound files done' := by
  obtain ⟨kind, hkind, h⟩ := bind_eq_ok_iff.1 h
  rw [access_eq_ok_iff] at hkind
  split at h
  · next items place hstack hembeds =>
    simp only [bind_eq_ok_iff, pure_eq_ok_iff] at h
    obtain ⟨⟨spliced, last⟩, hall, hend⟩ := h
    obtain ⟨rfl, rfl⟩ := Prod.mk.inj hend
    obtain ⟨hspliced, hlast⟩ := Include.processAll_processes hall hsound
    obtain rfl : kind = some stackKind := by simpa using hstack
    exact ⟨.stack hkind hembeds hspliced, hlast⟩
  · next hother =>
    obtain ⟨rfl, rfl⟩ := Prod.mk.inj (pure_eq_ok_iff.1 h)
    refine ⟨.other hkind fun hstack items place hembeds => ?_, hsound⟩
    exact hother items place (by simp [hstack]) hembeds

/-- An element that is loaded is what its file declares. -/
theorem load_reads {name file text : String} {place : Option Provenance} {done done' : Fragments}
    {e : Element} (h : load project name file text place done = .ok (e, done'))
    (htext : project.files.lookup file = some text) (hname : Path.stem? file = some name)
    (hsound : Include.Sound project.files done) :
    project.Reads file e ∧ Include.Sound project.files done' := by
  simp only [load, bind_eq_ok_iff, pure_eq_ok_iff] at h
  obtain ⟨document, hparse, ⟨spliced, mid⟩, hspliced, ⟨whole, last⟩, hwhole, element, hread, _,
    hcount, hend⟩ := h
  obtain ⟨rfl, rfl⟩ := Prod.mk.inj hend
  obtain ⟨hprocesses, hmid⟩ := Include.process_processes hspliced hsound
  obtain ⟨hembeds, hlast⟩ := includeEmbeds_splices hwhole hmid
  exact ⟨⟨text, document, spliced, whole, name, htext, mapError_eq_ok_iff.1 hparse, hprocesses,
    hembeds, hname, hread, hcount⟩, hlast⟩

end Element

namespace Project.Reads

variable {project : Project} {file : String} {e : Element}

theorem unique {other : Element} (h : project.Reads file e) (h' : project.Reads file other) :
    e = other := by
  obtain ⟨text, document, spliced, whole, name, htext, hparse, hspliced, hwhole, hname, hread, -⟩ := h
  obtain ⟨text', document', spliced', whole', name', htext', hparse', hspliced', hwhole', hname',
    hread', -⟩ := h'
  obtain rfl := Option.some.inj (htext.symm.trans htext')
  obtain rfl := Except.ok.inj (hparse.symm.trans hparse')
  obtain rfl := hspliced.unique hspliced'
  obtain rfl := hwhole.unique hwhole'
  obtain rfl := Option.some.inj (hname.symm.trans hname')
  exact Except.ok.inj (hread.symm.trans hread')

theorem stem (h : project.Reads file e) : Path.stem? file = some e.name := by
  obtain ⟨_, _, _, _, name, -, -, -, -, hname, hread, -⟩ := h
  rw [hname, Element.ofDocument_name hread]

theorem filename (h : project.Reads file e) : e.filename = file := by
  obtain ⟨_, _, _, _, name, -, -, -, -, -, hread, -⟩ := h
  exact Element.ofDocument_filename hread

theorem namesFiles (h : project.Reads file e) : e.NamesFiles := by
  obtain ⟨_, _, _, _, name, -, -, -, -, -, hread, -⟩ := h
  exact Element.ofDocument_namesFiles hread

/-- The data of an element has the properties that are kept and that the documents have which the file
and the fragments it includes hold. -/
theorem allData {q : Node → Prop} (hq : Node.IsKept q) (h : project.Reads file e)
    (hfiles : ∀ source text document, source = file ∨ project.Includes file source →
      project.files.lookup source = some text → Node.parseDocument text source = .ok document →
      q document) : e.AllData q := by
  obtain ⟨text, document, spliced, whole, name, htext, hparse, hspliced, hwhole, -, hread, -⟩ := h
  have hall : q spliced :=
    hspliced.kept hq (hfiles file text document (.inl rfl) htext hparse)
      fun source text fragment hsource => hfiles source text fragment
        (.inr (.document htext hparse hsource))
  refine hq.ofDocument ?_ hread
  cases hwhole with
  | @stack items results place hkind hembeds hitems =>
    refine hq.insert hall (hq.sequence (fun result hresult => ?_) place) Element.embedsKey
    -- each embed is composed of the item that it was and of the fragments that it includes
    obtain ⟨item, hitem, hprocesses⟩ := exists_of_forall₂_right hitems hresult
    exact hprocesses.kept hq (hq.items (hq.get? hall hembeds) item hitem)
      fun source text fragment hsource => hfiles source text fragment
        (.inr (.embed htext hparse hspliced hkind hembeds hitem hsource))
  | other => exact hall

end Project.Reads

end BuildGraph
