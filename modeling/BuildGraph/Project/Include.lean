import BuildGraph.Document.Parse
import BuildGraph.Graph.Unseen
import BuildGraph.Layer
import BuildGraph.Project.Files

/-!
# Includes

A document names fragments under `include`: files of the project that are spliced into it, each with
its own includes spliced in first. A fragment may add keys and extend mappings, but it overrides
nothing. `Include.process` splices the fragments of one document and keeps what it read, so that no
fragment is read twice. It ends because a fragment that includes itself is refused. What is read, and how
deep the fragments lie inside one another, does not show in its outcome: the same steps show it where they
are taken in another monad (`Include.Steps`).
-/

namespace BuildGraph

/-- The fragments read so far with their own includes spliced in, in the order they were completed. -/
abbrev Fragments := List (String × Node)

namespace Include

/-- The key of the includes of a document. -/
def key : String := "include"

/-- A fragment that a document names, and where it does. -/
structure Entry where
  file : String
  place : Provenance
  deriving DecidableEq, Repr

/-- Reads the name of one fragment. -/
def Entry.read (item : Node) : Except LoadError Entry :=
  match item.asString? with
  | some path =>
    if path = "" then .error (.invalidInclude item.valueType item.place)
    else .ok ⟨Path.normalize path, item.place⟩
  | none => .error (.invalidInclude item.valueType item.place)

/-- The nodes that name the fragments of a document: those of a list, or a single one. -/
def items (document : Node) : List Node :=
  match document.get? key with
  | none => []
  | some value =>
    if value.isNull then [] else if value.isSequence then value.items else [value]

/-- The fragments that a document names, in order. -/
def entries (document : Node) : Except LoadError (List Entry) :=
  (items document).mapM Entry.read

/-- The files that a project has and that are not being processed. -/
def inactive (files : Files) (active : List String) : Nat :=
  (unseen (Keyed.keys files) active).length

/-- What a step of including may do besides failing: it reads files, and goes into fragments that were
read. A load asks for the outcome only, where these leave nothing behind. -/
class Steps (m : Type → Type) where
  fail {α : Type} : LoadError → m α
  read : String → m Unit
  enter {α : Type} : m α → m α

namespace Steps

variable {m : Type → Type} [Monad m] [Steps m]

/-- A step that reads nothing. -/
def of {α : Type} : Except LoadError α → m α
  | .ok a => pure a
  | .error e => fail e

/-- Splices fragments into a document, one after the other. How the one that an entry names is fetched
is left open. -/
def splice (fetch : Entry → Fragments → m (Node × Fragments)) :
    (entries : List Entry) → (document : Node) → (done : Fragments) → m (Node × Fragments)
  | [], document, done => pure (document, done)
  | entry :: rest, document, done => do
    let (data, done) ← fetch entry done
    let document ← of ((Layer.fragment entry.file).onto entry.place data document)
    splice fetch rest document done

/-- The fragment that an entry names, while the fragments `active` are being processed. -/
def fragment (files : Files) (active : List String) (entry : Entry) (done : Fragments) :
    m (Node × Fragments) :=
  if active.contains entry.file then fail (.circularInclude entry.file active entry.place)
  else match done.lookup entry.file with
    | some document => pure (document, done)
    | none => do
      read entry.file
      match _found : files.lookup entry.file with
      | none => fail (.missingFragment entry.file entry.place)
      | some text =>
        match Node.parseDocument text entry.file with
        | .error e => fail (.invalidFragment entry.file entry.place e)
        | .ok document => enter do
          let inner ← of (entries document)
          let (data, kept) ←
            splice (fragment files (active ++ [entry.file])) inner (document.erase key) done
          pure (data, kept ++ [(entry.file, data)])
termination_by inactive files active
decreasing_by
  exact length_unseen_append_lt (Keyed.lookup_isSome_iff.1 (by simp [_found])) (by simp_all)

/-- Splices the fragments that a document names into it. -/
def process (files : Files) (document : Node) (done : Fragments) : m (Node × Fragments) := do
  let named ← of (entries document)
  splice (fragment files []) named (document.erase key) done

/-- Splices the fragments of each of the documents into it. What is no mapping names no fragments. -/
def processAll (files : Files) :
    (documents : List Node) → (done : Fragments) → m (List Node × Fragments)
  | [], done => pure ([], done)
  | document :: rest, done => do
    let (document, done) ← process files document done
    let (rest, done) ← processAll files rest done
    pure (document :: rest, done)

end Steps

instance : Steps (Except LoadError) where
  fail := .error
  read _ := .ok ()
  enter steps := steps

/-- What fetching the fragment that an entry names comes to. -/
def fragment (files : Files) (active : List String) (entry : Entry) (done : Fragments) :
    Except LoadError (Node × Fragments) :=
  Steps.fragment files active entry done

/-- What splicing the fragments that the entries name into a document comes to. -/
def splice (files : Files) (active : List String) (entries : List Entry) (document : Node)
    (done : Fragments) : Except LoadError (Node × Fragments) :=
  Steps.splice (Steps.fragment files active) entries document done

/-- What a document comes to with the fragments that it names. -/
def process (files : Files) (document : Node) (done : Fragments) :
    Except LoadError (Node × Fragments) :=
  Steps.process files document done

/-- What documents come to with the fragments that they name, one after the other. -/
def processAll (files : Files) (documents : List Node) (done : Fragments) :
    Except LoadError (List Node × Fragments) :=
  Steps.processAll files documents done

end Include

end BuildGraph
