import BuildGraph.Element.Declaration
import BuildGraph.Project.Include

/-!
# Discovery

Loading the element of the target's file and the elements of all files that are depended on from it,
in whatever variant, depth first and each file once. `Discovery.discover` also answers which files
were begun, in order, whether it succeeds or not.
-/

namespace BuildGraph

/-- The fixed surroundings of a load. -/
structure Project where
  files : Files
  archs : Architectures := {}

namespace Element

/-- Splices fragments into the embeds of a stack. -/
def includeEmbeds (files : Files) (document : Node) (done : Fragments) :
    Except LoadError (Node × Fragments) := do
  let kind ← document.getString? kindKey
  match kind == some stackKind, document.get? embedsKey with
  | true, some (.sequence items place) =>
    let (items, done) ← Include.processAll files items done
    pure (document.insert embedsKey (.sequence items place), done)
  | _, _ => pure (document, done)

/-- An element that is no stack declares no variant or at least two. -/
def checkVariantCount (e : Element) : Except LoadError Unit :=
  match e.variants with
  | [variant] => if e.isStack then .ok () else .error (.singleVariant e.name variant.place)
  | _ => .ok ()

/-- Loads the element `name` from the text of its file; `place` is where the file was asked for. -/
def load (project : Project) (name file text : String) (place : Option Provenance)
    (done : Fragments) : Except LoadError (Element × Fragments) := do
  let document ← (Node.parseDocument text file).mapError (.invalidFile file place)
  let (document, done) ← Include.process project.files document done
  let (document, done) ← includeEmbeds project.files document done
  let element ← ofDocument project.archs .file name file document
  element.checkVariantCount
  pure (element, done)

end Element

/-- A file that is asked for, and where. The target is asked for nowhere. -/
structure FileRequest where
  file : String
  place : Option Provenance
  deriving DecidableEq, Repr

/-- The files that the dependencies of an element ask for, whatever the variant. -/
def Element.fileRequests (e : Element) : List FileRequest :=
  e.declaredDeps.filterMap fun dep => dep.filename.map (⟨·, some dep.place⟩)

/-- What a load has found so far. -/
structure Discovery where
  /-- The files that were begun, in order. -/
  begun : List String := []
  /-- The elements of those files. -/
  elements : Elements := .empty
  /-- The fragments that were read. -/
  fragments : Fragments := []

/-- What a load came to, with the files it began. -/
structure Loading (α : Type) where
  /-- The files that were begun, in order, also when the load failed. -/
  ticks : List String
  /-- What was loaded, or what aborted the load. -/
  result : Except LoadError α

namespace Discovery

/-- Loads the files asked for and all that they ask for, depth first. -/
def discover (project : Project) (requests : List FileRequest) (d : Discovery) :
    Loading Elements :=
  match requests with
  | [] => ⟨d.begun, .ok d.elements⟩
  | request :: rest =>
    let file := Path.normalize request.file
    match Element.nameOfFile file request.place with
    | .error e => ⟨d.begun, .error e⟩
    | .ok name =>
      if d.begun.contains file then discover project rest d
      else match d.elements.find? name with
        | some existing =>
          ⟨d.begun, .error (.conflictingFile file existing.filename request.place)⟩
        | none =>
          let begun := d.begun ++ [file]
          match _found : project.files.lookup file with
          | none => ⟨begun, .error (.missingFile file request.place)⟩
          | some text =>
            match Element.load project name file text request.place d.fragments with
            | .error e => ⟨begun, .error e⟩
            | .ok (element, fragments) =>
              discover project (element.fileRequests ++ rest)
                ⟨begun, d.elements.put element, fragments⟩
termination_by ((unseen (Keyed.keys project.files) d.begun).length, requests.length)
decreasing_by
  · exact Prod.Lex.right _ (by simp)
  · have listed : file ∈ Keyed.keys project.files := Keyed.lookup_isSome_iff.1 (by simp [_found])
    have new : file ∉ d.begun := by simp_all
    exact Prod.Lex.left _ _ (length_unseen_append_lt listed new)

/-- Loads the element of a file and everything that is asked for from there. -/
def fromTarget (project : Project) (target : String) : Loading Elements :=
  discover project [⟨target, none⟩] {}

end Discovery

end BuildGraph
