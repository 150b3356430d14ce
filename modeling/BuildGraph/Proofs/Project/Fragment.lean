import BuildGraph.Proofs.Document.Kept
import BuildGraph.Proofs.Project.Include

/-!
# The fragments of a document

A document with its fragments spliced in is composed of the document and of the fragments that are
included on the way, each read from its own file. So it has the properties of all of them that are
kept.
-/

namespace BuildGraph

namespace Include

/-- Whether a file is that of a fragment that the entries name, or of one that such a fragment
includes. -/
inductive Leads (files : Files) : List Entry → String → Prop
  | named {named : List Entry} {entry : Entry} : entry ∈ named → Leads files named entry.file
  | inner {named inner : List Entry} {entry : Entry} {text file : String} {fragment : Node} :
    entry ∈ named → files.lookup entry.file = some text →
    Node.parseDocument text entry.file = .ok fragment → entries fragment = .ok inner →
    Leads files inner file → Leads files named file

/-- Whether a document includes the fragment in a file, itself or by way of other fragments. -/
def Includes (files : Files) (document : Node) (file : String) : Prop :=
  ∃ named, entries document = .ok named ∧ Leads files named file

variable {files : Files} {q : Node → Prop}

theorem Leads.of_rest {entry : Entry} {rest : List Entry} {file : String}
    (h : Leads files rest file) : Leads files (entry :: rest) file := by
  cases h with
  | named hentry => exact .named (List.mem_cons_of_mem _ hentry)
  | inner hentry htext hparse hinner hfile =>
    exact .inner (List.mem_cons_of_mem _ hentry) htext hparse hinner hfile

/-- Splicing composes the document with the fragments only. -/
theorem Splices.kept (hq : Node.IsKept q) {named : List Entry} {document result : Node}
    (h : Splices files named document result) (hdocument : q document)
    (hfragments : ∀ file text fragment, Leads files named file → files.lookup file = some text →
      Node.parseDocument text file = .ok fragment → q fragment) : q result := by
  induction h with
  | nil => exact hdocument
  | @cons entry rest inner text fragment data document mid result htext hparse hinner _ honto _
      ihInner ihRest =>
    have hfragment := hfragments entry.file text fragment (.named List.mem_cons_self) htext hparse
    have hdata : q data := ihInner (hq.erase hfragment key) fun file text fragment hfile =>
      hfragments file text fragment (.inner List.mem_cons_self htext hparse hinner hfile)
    exact ihRest (hq.onto hdocument hdata honto) fun file text fragment hfile =>
      hfragments file text fragment hfile.of_rest

theorem Processes.kept (hq : Node.IsKept q) {document result : Node}
    (h : Processes files document result) (hdocument : q document)
    (hfragments : ∀ file text fragment, Includes files document file →
      files.lookup file = some text → Node.parseDocument text file = .ok fragment → q fragment) :
    q result := by
  obtain ⟨named, hnamed, hsplices⟩ := h
  exact hsplices.kept hq (hq.erase hdocument key) fun file text fragment hfile =>
    hfragments file text fragment ⟨named, hnamed, hfile⟩

end Include

end BuildGraph
