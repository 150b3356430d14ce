import BuildGraph.Project.Discovery
import BuildGraph.Proofs.Stack.Expand
import BuildGraph.Proofs.Variant.Consistency

/-!
# What is discovered

A discovery that succeeds passes over the files that were begun before, and loads the others one by
one (`Discovers`). Laws about the table it finds go by induction on that.
-/

namespace BuildGraph

variable {project : Project}

namespace Element

theorem load_name {name file text : String} {place : Option Provenance} {done done' : Fragments}
    {e : Element} (h : load project name file text place done = .ok (e, done')) :
    e.name = name := by
  simp only [load, bind_eq_ok_iff, pure_eq_ok_iff, Prod.mk.injEq] at h
  obtain ⟨document, -, spliced, -, embedded, -, element, hread, _, -, rfl, -⟩ := h
  exact ofDocument_name hread

end Element

namespace Discovery

/-- The element that a discovery loads for a request: the file was not begun before, its name is free,
and what it declares can be read. -/
structure Loads (project : Project) (d : Discovery) (request : FileRequest) (element : Element)
    (fragments : Fragments) : Prop where
  name : Element.nameOfFile (Path.normalize request.file) request.place = .ok element.name
  new : d.begun.contains (Path.normalize request.file) = false
  free : d.elements.find? element.name = none
  read : ∃ text, project.files.lookup (Path.normalize request.file) = some text ∧
    Element.load project element.name (Path.normalize request.file) text request.place d.fragments =
      .ok (element, fragments)

/-- The errors with which a discovery fails at a request. -/
inductive FailsWith (project : Project) (d : Discovery) (request : FileRequest) : LoadError → Prop
  | name {e : LoadError} :
    Element.nameOfFile (Path.normalize request.file) request.place = .error e →
    FailsWith project d request e
  | conflict (existing : String) : FailsWith project d request
    (.conflictingFile (Path.normalize request.file) existing request.place)
  | missing : FailsWith project d request
    (.missingFile (Path.normalize request.file) request.place)
  | read {name text : String} {e : LoadError} :
    Element.load project name (Path.normalize request.file) text request.place d.fragments =
      .error e → FailsWith project d request e

/-- The discoveries that succeed, with the table they find. -/
inductive Discovers (project : Project) : List FileRequest → Discovery → Elements → Prop
  | done {d : Discovery} : Discovers project [] d d.elements
  | skip {request : FileRequest} {rest : List FileRequest} {d : Discovery} {elements : Elements}
    {name : String} : Element.nameOfFile (Path.normalize request.file) request.place = .ok name →
    d.begun.contains (Path.normalize request.file) = true →
    Discovers project rest d elements → Discovers project (request :: rest) d elements
  | load {request : FileRequest} {rest : List FileRequest} {d : Discovery} {elements : Elements}
    {element : Element} {fragments : Fragments} : Loads project d request element fragments →
    Discovers project (element.fileRequests ++ rest)
      ⟨d.begun ++ [Path.normalize request.file], d.elements.put element, fragments⟩ elements →
    Discovers project (request :: rest) d elements

theorem discover_of_begun {request : FileRequest} {rest : List FileRequest} {d : Discovery}
    {name : String}
    (hname : Element.nameOfFile (Path.normalize request.file) request.place = .ok name)
    (hbegun : d.begun.contains (Path.normalize request.file) = true) :
    discover project (request :: rest) d = discover project rest d := by
  rw [discover.eq_def]
  simp only [hname, hbegun, if_true]

theorem discover_of_loads {request : FileRequest} {rest : List FileRequest} {d : Discovery}
    {element : Element} {fragments : Fragments} (h : Loads project d request element fragments) :
    discover project (request :: rest) d = discover project (element.fileRequests ++ rest)
      ⟨d.begun ++ [Path.normalize request.file], d.elements.put element, fragments⟩ := by
  obtain ⟨text, htext, hread⟩ := h.read
  rw [discover.eq_def]
  simp only [h.name, h.new, h.free, Bool.false_eq_true, if_false]
  split
  · next hnone => exact absurd (htext.symm.trans hnone) (by simp)
  · next text' htext' =>
    obtain rfl : text = text' := Option.some.inj (htext.symm.trans htext')
    simp only [hread]

/-- Induction along a discovery: it passes over its first request, or loads it, or fails with it, after
beginning its file or not. -/
@[elab_as_elim]
theorem discover_induction (project : Project) {motive : List FileRequest → Discovery → Prop}
    (done : ∀ d, motive [] d)
    (skip : ∀ (request : FileRequest) rest d name,
      Element.nameOfFile (Path.normalize request.file) request.place = .ok name →
      d.begun.contains (Path.normalize request.file) = true →
      motive rest d → motive (request :: rest) d)
    (load : ∀ request rest d element fragments, Loads project d request element fragments →
      motive (element.fileRequests ++ rest)
        ⟨d.begun ++ [Path.normalize request.file], d.elements.put element, fragments⟩ →
      motive (request :: rest) d)
    (fail : ∀ (request : FileRequest) rest d e ticks,
      discover project (request :: rest) d = ⟨ticks, .error e⟩ → FailsWith project d request e →
      ticks = d.begun ∨
        Path.normalize request.file ∉ d.begun ∧ ticks = d.begun ++ [Path.normalize request.file] →
      motive (request :: rest) d)
    (requests : List FileRequest) (d : Discovery) : motive requests d := by
  induction requests, d using discover.induct project with
  | case1 d => exact done d
  | case2 d request rest file e he =>
    simp only [file] at he
    refine fail request rest d e _ ?_ (.name he) (.inl rfl)
    rw [discover.eq_def]
    simp only [he]
  | case3 d request rest file name hname hbegun ih => exact skip request rest d name hname hbegun ih
  | case4 d request rest file name hname hnew existing hfound =>
    simp only [file] at hname hnew
    refine fail request rest d
      (.conflictingFile (Path.normalize request.file) existing.filename request.place) _ ?_
      (.conflict _) (.inl rfl)
    rw [discover.eq_def]
    simp only [hname, if_neg hnew, hfound]
  | case5 d request rest file name hname hnew hfree hmissing =>
    simp only [file] at hname hnew hmissing
    refine fail request rest d (.missingFile (Path.normalize request.file) request.place) _ ?_
      .missing (.inr ⟨mt List.contains_iff_mem.2 hnew, rfl⟩)
    rw [discover.eq_def]
    simp only [hname, if_neg hnew, hfree]
    split
    · rfl
    · next text htext => exact absurd (hmissing.symm.trans htext) (by simp)
  | case6 d request rest file name hname hnew hfree text htext e he =>
    simp only [file] at hname hnew htext he
    refine fail request rest d e _ ?_ (.read he) (.inr ⟨mt List.contains_iff_mem.2 hnew, rfl⟩)
    rw [discover.eq_def]
    simp only [hname, if_neg hnew, hfree]
    split
    · next hnone => exact absurd (htext.symm.trans hnone) (by simp)
    · next text' htext' =>
      obtain rfl := Option.some.inj (htext.symm.trans htext')
      simp only [he]
  | case7 d request rest file name hname hnew hfree begun text htext element fragments hread ih =>
    obtain rfl : element.name = name := Element.load_name hread
    exact load request rest d element fragments
      ⟨hname, by simpa using hnew, hfree, text, htext, hread⟩ ih

theorem discovers_of_discover (requests : List FileRequest) (d : Discovery) :
    ∀ elements, (discover project requests d).result = .ok elements →
      Discovers project requests d elements := by
  induction requests, d using discover_induction project with
  | done d =>
    intro elements h
    rw [discover.eq_def] at h
    cases h
    exact .done
  | skip request rest d name hname hbegun ih =>
    intro elements h
    rw [discover_of_begun hname hbegun] at h
    exact .skip hname hbegun (ih elements h)
  | load request rest d element fragments hload ih =>
    intro elements h
    rw [discover_of_loads hload] at h
    exact .load hload (ih elements h)
  | fail request rest d e ticks hfail _ _ =>
    intro elements h
    rw [hfail] at h
    cases h

theorem Discovers.result {requests : List FileRequest} {d : Discovery} {elements : Elements}
    (h : Discovers project requests d elements) :
    (discover project requests d).result = .ok elements := by
  induction h with
  | done => rw [discover.eq_def]
  | skip hname hbegun _ ih =>
    rw [discover_of_begun hname hbegun]
    exact ih
  | load hload _ ih =>
    rw [discover_of_loads hload]
    exact ih

/-- What is in the table stays in it. -/
theorem Discovers.keeps {requests : List FileRequest} {d : Discovery} {elements : Elements}
    (h : Discovers project requests d elements) {n : String} (hn : (d.elements.find? n).isSome) :
    (elements.find? n).isSome := by
  induction h with
  | done => exact hn
  | skip _ _ _ ih => exact ih hn
  | load _ _ ih => exact ih (Roster.find?_put_isSome _ hn)

/-- A discovery finds the element of the target. -/
theorem fromTarget_isSome {target name : String} {elements : Elements}
    (h : (fromTarget project target).result = .ok elements)
    (hname : Element.nameOfFile (Path.normalize target) none = .ok name) :
    (elements.find? name).isSome := by
  cases discovers_of_discover _ _ elements h with
  | skip _ hbegun => cases hbegun
  | load hload hrest =>
    obtain rfl := Except.ok.inj (hname.symm.trans hload.name)
    exact hrest.keeps (Option.isSome_iff_exists.2 ⟨_, Roster.find?_put_self rfl⟩)

end Discovery

/-- The text of an element `a` that needs `b` in its variant `x` only. -/
def switchedText : String :=
  "kind: manual\nvariants:\n- variant: x\n  depends: [b.bst]\n- variant: y\n"

/-- The text of an element `b` that needs `a` in its variant `y`. -/
def switchingText : String :=
  "kind: manual\ndepends:\n- filename: a.bst\n  variant: y\n"

def switchedElement : Element where
  name := "a"
  filename := "a.bst"
  kind := "manual"
  data := .mapping [("kind", .scalar (.string "manual") ⟨"a.bst", 1, 6⟩)] ⟨"a.bst", 1, 0⟩
  baseDeps := []
  variants := [
    ⟨"x", .mapping [] ⟨"a.bst", 3, 2⟩, [⟨"a", "b", none, some "b.bst", none, ⟨"a.bst", 4, 12⟩⟩],
      ⟨"a.bst", 3, 11⟩⟩,
    ⟨"y", .mapping [] ⟨"a.bst", 5, 2⟩, [], ⟨"a.bst", 5, 11⟩⟩]

def switchingElement : Element where
  name := "b"
  filename := "b.bst"
  kind := "manual"
  data := .mapping [("kind", .scalar (.string "manual") ⟨"b.bst", 1, 6⟩)] ⟨"b.bst", 1, 0⟩
  baseDeps := [⟨"b", "a", some "y", some "a.bst", none, ⟨"b.bst", 3, 2⟩⟩]
  variants := []

def switchedFiles : Files := [("b.bst", switchingText), ("a.bst", switchedText)]

def switchedTable : Elements := .ofList [switchedElement, switchingElement]

theorem switchedElement_loads : Discovery.Loads ⟨switchedFiles, {}⟩ {} ⟨"a.bst", none⟩
    switchedElement [] where
  name := by decide +kernel
  new := rfl
  free := rfl
  read := ⟨switchedText, by decide +kernel, by decide +kernel⟩

theorem switchingElement_loads : Discovery.Loads ⟨switchedFiles, {}⟩
    ⟨["a.bst"], Roster.put .empty switchedElement, []⟩ ⟨"b.bst", some ⟨"a.bst", 4, 12⟩⟩
    switchingElement [] where
  name := by decide +kernel
  new := by decide +kernel
  free := rfl
  read := ⟨switchingText, by decide +kernel, by decide +kernel⟩

theorem switchedFiles_discovered :
    (Discovery.fromTarget ⟨switchedFiles, {}⟩ "a.bst").result = .ok switchedTable := by
  have hA : Path.normalize "a.bst" = "a.bst" := by decide +kernel
  have hB : Path.normalize "b.bst" = "b.bst" := by decide +kernel
  have hname : Element.nameOfFile (Path.normalize "a.bst") (some ⟨"b.bst", 3, 2⟩) = .ok "a" := by
    decide +kernel
  have hbegun : ["a.bst", "b.bst"].contains (Path.normalize "a.bst") = true := by decide +kernel
  have hlast : Discovery.Discovers ⟨switchedFiles, {}⟩ [⟨"a.bst", some ⟨"b.bst", 3, 2⟩⟩]
      ⟨["a.bst", "b.bst"], switchedTable, []⟩ switchedTable := .skip hname hbegun .done
  have hall : Discovery.Discovers ⟨switchedFiles, {}⟩ [⟨"a.bst", none⟩] {} switchedTable := by
    refine .load switchedElement_loads ?_
    rw [hA]
    refine .load switchingElement_loads ?_
    rw [hB]
    exact hlast
  exact hall.result

end BuildGraph
