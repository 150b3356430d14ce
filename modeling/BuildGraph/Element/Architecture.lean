import BuildGraph.Layer

/-!
# Architecture overlays

A document may hold overlays for architectures, by name, under `host-arches` and `arches`. The one of
the host is composited onto the document first, then the one of the target. Both keys are taken out
of the document, whether an overlay is found or not.
-/

namespace BuildGraph

/-- The architectures that overlays are chosen by, where they are known. -/
structure Architectures where
  /-- The machine that builds. -/
  host : Option String := none
  /-- The machine that is built for. -/
  target : Option String := none
  deriving DecidableEq, Repr

namespace Architectures

/-- The key of the overlays for the host. -/
def hostKey : String := "host-arches"

/-- The key of the overlays for the target. -/
def targetKey : String := "arches"

/-- The overlay that a document holds under a key for an architecture, if there is one. -/
def overlay? (document : Node) (key : String) (arch : Option String) :
    Except AccessError (Option (String × Node)) := do
  match ← document.getMapping? key, arch with
  | some overlays, some arch => pure ((← overlays.getMapping? arch).map (arch, ·))
  | _, _ => pure none

/-- Takes the overlays under a key out of a document and puts the one for an architecture onto it. -/
def applyOverlay (key : String) (arch : Option String) (document : Node) :
    Except LoadError Node := do
  match ← overlay? document key arch with
  | some (arch, overlay) =>
    (Layer.architecture arch).onto overlay.place overlay (document.erase key)
  | none => pure (document.erase key)

/-- Applies the overlays of a document: the one for the host, then the one for the target. -/
def apply (archs : Architectures) (document : Node) : Except LoadError Node := do
  applyOverlay targetKey archs.target (← applyOverlay hostKey archs.host document)

end Architectures

end BuildGraph
