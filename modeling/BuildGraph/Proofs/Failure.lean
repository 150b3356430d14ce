import BuildGraph.Load
import BuildGraph.Proofs.Graph.Cycle
import BuildGraph.Proofs.Project.Include

/-!
# Failures over elements that are not there

Two errors say that an element was never loaded. They come of looking an element up, so nothing that
reads documents, and no check of what it read, fails with them.
-/

namespace BuildGraph

/-- Whether an error says that an element was never loaded, or may say so in other words. -/
def LoadError.IsNeverLoaded : LoadError → Prop
  | .neverLoaded _ | .variantConflict (.missing _) | .other .. => True
  | _ => False

/-- Whether a step does not fail because an element was never loaded. -/
def NeverMisses {α : Type} (step : Except LoadError α) : Prop :=
  ∀ e, step = .error e → ¬e.IsNeverLoaded

section

variable {ε α β : Type}

theorem neverMisses_ok (a : α) : NeverMisses (.ok a) :=
  nofun

theorem neverMisses_error {e : LoadError} (h : ¬e.IsNeverLoaded) :
    NeverMisses (.error e : Except LoadError α) := by
  intro e' heq
  exact Except.error.inj heq ▸ h

theorem NeverMisses.bind {step : Except LoadError α} {f : α → Except LoadError β}
    (h : NeverMisses step) (hnext : ∀ a, step = .ok a → NeverMisses (f a)) :
    NeverMisses (step >>= f) := by
  cases step with
  | error e => exact neverMisses_error (h e rfl)
  | ok a => exact hnext a rfl

theorem NeverMisses.map {step : Except LoadError α} (h : NeverMisses step) (f : α → β) :
    NeverMisses (f <$> step) := by
  cases step with
  | error e => exact neverMisses_error (h e rfl)
  | ok a => exact neverMisses_ok (f a)

theorem neverMisses_mapError {f : ε → LoadError} (h : ∀ e, ¬(f e).IsNeverLoaded)
    (step : Except ε α) : NeverMisses (step.mapError f) := by
  cases step with
  | error e => exact neverMisses_error (h e)
  | ok a => exact neverMisses_ok a

/-- What an access lacks is a member of a document. -/
theorem neverMisses_access (step : Except AccessError α) :
    NeverMisses (liftM step : Except LoadError α) :=
  neverMisses_mapError (fun _ => id) step

theorem neverMisses_mapM {f : α → Except LoadError β} (h : ∀ a, NeverMisses (f a)) (xs : List α) :
    NeverMisses (xs.mapM f) := by
  induction xs with
  | nil => exact neverMisses_ok []
  | cons x rest ih =>
    rw [List.mapM_cons]
    exact (h x).bind fun _ _ => ih.bind fun _ _ => neverMisses_ok _

end

theorem Layer.neverMisses_onto (layer : Layer) (place : Provenance) (data document : Node) :
    NeverMisses (layer.onto place data document) :=
  neverMisses_mapError (fun _ => id) _

theorem Architectures.neverMisses_apply (archs : Architectures) (document : Node) :
    NeverMisses (archs.apply document) := by
  have hoverlay : ∀ key arch (document : Node), NeverMisses (applyOverlay key arch document) := by
    intro key arch document
    refine (neverMisses_access _).bind fun found _ => ?_
    cases found with
    | none => exact neverMisses_ok _
    | some found => exact Layer.neverMisses_onto _ _ _ _
  exact (hoverlay _ _ _).bind fun _ _ => hoverlay _ _ _

namespace Include

variable {files : Files}

theorem neverMisses_entries (document : Node) : NeverMisses (entries document) := by
  refine neverMisses_mapM (fun item => ?_) _
  rw [Entry.read]
  split
  · split
    · exact neverMisses_error id
    · exact neverMisses_ok _
  · exact neverMisses_error id

theorem neverMisses_splice (active : List String) (named : List Entry) (document : Node)
    (done : Fragments) : NeverMisses (splice files active named document done) := by
  refine error_induction files (fun _ _ e => ¬e.IsNeverLoaded) (fun _ _ e => ¬e.IsNeverLoaded)
    ?circular ?missing ?invalid ?unnamed ?read ?first ?layer ?later active named document done
  case circular => exact fun _ _ _ => id
  case missing => exact fun _ _ => id
  case invalid => exact fun _ _ _ => id
  case unnamed => exact fun _ _ document e he => neverMisses_entries document e he
  case read => exact fun _ _ _ _ _ _ _ _ _ hmerge => hmerge
  case first => exact fun _ _ _ _ hfetch => hfetch
  case layer => exact fun _ entry _ _ _ e he => Layer.neverMisses_onto _ _ _ _ e he
  case later => exact fun _ _ _ _ hmerge => hmerge

theorem neverMisses_process (document : Node) (done : Fragments) :
    NeverMisses (process files document done) := by
  rw [process_eq]
  exact (neverMisses_entries document).bind fun _ _ => neverMisses_splice _ _ _ _

theorem neverMisses_processAll (documents : List Node) (done : Fragments) :
    NeverMisses (processAll files documents done) := by
  induction documents generalizing done with
  | nil => exact neverMisses_ok _
  | cons document rest ih =>
    exact (neverMisses_process document done).bind fun _ _ => (ih _).bind fun _ _ =>
      neverMisses_ok _

end Include

theorem Element.neverMisses_nameOfFile (file : String) (place : Option Provenance) :
    NeverMisses (Element.nameOfFile file place) := by
  rw [Element.nameOfFile]
  split
  · exact neverMisses_ok _
  · exact neverMisses_error id

theorem Variant.neverMisses_checkName (name : String) (place : Provenance) :
    NeverMisses (Variant.checkName name place) := by
  rw [Variant.checkName]
  split
  · exact neverMisses_ok _
  · exact neverMisses_error id

namespace Dependency

theorem Request.neverMisses_read (scope : DependencyScope) (item : Node) :
    NeverMisses (Request.read scope item) := by
  have hvariant : NeverMisses (readVariant item) := by
    refine (neverMisses_access _).bind fun found _ => ?_
    cases found with
    | none => exact neverMisses_ok _
    | some name => exact (Variant.neverMisses_checkName _ _).map _
  have htype : NeverMisses (readType item) := by
    refine (neverMisses_access _).bind fun found _ => ?_
    cases found with
    | none => exact neverMisses_ok _
    | some text =>
      dsimp only
      split
      · exact neverMisses_ok _
      · exact neverMisses_error id
  rw [Request.read]
  split
  · exact neverMisses_ok _
  · split
    · split
      · exact neverMisses_error id
      · exact (neverMisses_access _).bind fun _ _ => hvariant.bind fun _ _ =>
          htype.bind fun _ _ => neverMisses_ok _
    · exact neverMisses_error id

theorem neverMisses_read (scope : DependencyScope) (owner : String) (item : Node) :
    NeverMisses (read scope owner item) := by
  have htarget : ∀ target place, NeverMisses (resolveTarget scope target place) := by
    intro target place
    cases scope with
    | stack => exact neverMisses_ok _
    | file =>
      rw [resolveTarget]
      split
      · exact neverMisses_error id
      · exact (Element.neverMisses_nameOfFile _ _).bind fun _ _ => neverMisses_ok _
  exact (Request.neverMisses_read scope item).bind fun _ _ => (htarget _ _).bind fun _ _ =>
    neverMisses_ok _

theorem neverMisses_take (scope : DependencyScope) (owner : String) (document : Node) :
    NeverMisses (take scope owner document) := by
  have hnew : ∀ before dep, NeverMisses (checkNew scope before dep) := by
    intro before dep
    rw [checkNew]
    split
    · exact neverMisses_error id
    · exact neverMisses_ok _
  have hlist : ∀ items before, NeverMisses (readList scope owner items before) := by
    intro items
    induction items with
    | nil => exact fun _ => neverMisses_ok _
    | cons item rest ih =>
      exact fun before => (neverMisses_read scope owner item).bind fun _ _ =>
        (hnew _ _).bind fun _ _ => ih _
  exact (neverMisses_access _).bind fun _ _ => (hlist _ _).bind fun _ _ => neverMisses_ok _

end Dependency

theorem Variant.neverMisses_take (archs : Architectures) (scope : DependencyScope) (owner : String)
    (document : Node) : NeverMisses (Variant.take archs scope owner document) := by
  have hnew : ∀ before name place, NeverMisses (checkNew before name place) := by
    intro before name place
    rw [checkNew]
    split
    · exact neverMisses_error id
    · exact neverMisses_ok _
  have hread : ∀ before item, NeverMisses (read archs scope owner before item) := by
    intro before item
    exact (neverMisses_access _).bind fun _ _ => (neverMisses_access _).bind fun _ _ =>
      (neverMisses_checkName _ _).bind fun _ _ => (hnew _ _ _).bind fun _ _ =>
      (archs.neverMisses_apply _).bind fun _ _ =>
      (Dependency.neverMisses_take _ _ _).bind fun _ _ => neverMisses_ok _
  have hlist : ∀ items before, NeverMisses (readList archs scope owner items before) := by
    intro items
    induction items with
    | nil => exact fun _ => neverMisses_ok _
    | cons item rest ih => exact fun before => (hread _ _).bind fun _ _ => ih _
  exact (neverMisses_access _).bind fun _ _ => (hlist _ _).bind fun _ _ => neverMisses_ok _

namespace Element

theorem neverMisses_ofDocument (archs : Architectures) (scope : DependencyScope)
    (name filename : String) (document : Node) :
    NeverMisses (ofDocument archs scope name filename document) :=
  (neverMisses_access _).bind fun _ _ => (archs.neverMisses_apply _).bind fun _ _ =>
    (Dependency.neverMisses_take _ _ _).bind fun _ _ =>
    (Variant.neverMisses_take _ _ _ _).bind fun _ _ => neverMisses_ok _

theorem neverMisses_load (project : Project) (name file text : String) (place : Option Provenance)
    (done : Fragments) : NeverMisses (load project name file text place done) := by
  have hembeds : ∀ document done, NeverMisses (includeEmbeds project.files document done) := by
    intro document done
    refine (neverMisses_access _).bind fun kind _ => ?_
    split
    · exact (Include.neverMisses_processAll _ _).bind fun _ _ => neverMisses_ok _
    · exact neverMisses_ok _
  have hcount : ∀ e : Element, NeverMisses e.checkVariantCount := by
    intro e
    rw [checkVariantCount]
    split
    · split
      · exact neverMisses_ok _
      · exact neverMisses_error id
    · exact neverMisses_ok _
  exact (neverMisses_mapError (fun _ => id) _).bind fun _ _ =>
    (Include.neverMisses_process _ _).bind fun _ _ => (hembeds _ _).bind fun _ _ =>
    (neverMisses_ofDocument _ _ _ _ _).bind fun _ _ => (hcount _).bind fun _ _ => neverMisses_ok _

end Element

theorem Configuration.neverMisses_commitTo (c : Configuration) (e : Element) :
    NeverMisses (c.commitTo e) := by
  have hdata : NeverMisses (e.dataIn c.variant) := by
    rw [Element.dataIn]
    split
    · exact Layer.neverMisses_onto _ _ _ _
    · exact neverMisses_ok _
  exact hdata.bind fun _ _ => neverMisses_ok _

namespace Elements

theorem neverMisses_checkRequests (elements : Elements) (target : String)
    (variant : Option String) : NeverMisses (elements.checkRequests target variant) := by
  have htarget : NeverMisses (elements.checkTarget target variant) := by
    unfold checkTarget
    split
    · split
      · exact neverMisses_error id
      · exact neverMisses_ok _
    · exact neverMisses_ok _
  have hdeps : ∀ deps, NeverMisses (elements.checkDeps deps) := by
    intro deps
    induction deps with
    | nil => exact neverMisses_ok _
    | cons dep rest ih =>
      rw [checkDeps]
      split
      · exact neverMisses_error id
      · exact ih
  exact htarget.bind fun _ _ => hdeps _

theorem neverMisses_commit (elements : Elements) (cs : List Configuration) :
    NeverMisses (elements.commit cs) := by
  induction cs generalizing elements with
  | nil => exact neverMisses_ok _
  | cons c rest ih =>
    rw [commit]
    split
    · exact (Configuration.neverMisses_commitTo _ _).bind fun _ _ => ih _
    · exact ih _

theorem neverMisses_checkCircular (elements : Elements) (starts : List String) :
    NeverMisses (elements.checkCircular starts) := by
  have hvisit : ∀ path arrivals sound, NeverMisses (elements.visit path arrivals sound) := by
    intro path arrivals sound
    induction path, arrivals, sound using visit.induct elements with
    | case1 path sound =>
      rw [visit]
      exact neverMisses_ok _
    | case2 path sound arrival rest hsound ih =>
      rw [visit, if_pos hsound]
      exact ih
    | case3 path sound arrival rest hsound hpath =>
      rw [visit, if_neg hsound, if_pos hpath]
      exact neverMisses_error id
    | case4 path sound arrival rest hsound hpath hnone ih =>
      rw [visit_of_find?_eq_none hsound hpath hnone]
      exact ih
    | case5 path sound arrival rest hsound hpath e he ihFirst ihRest =>
      rw [visit_of_find? hsound hpath he]
      exact ihFirst.bind fun _ _ => ihRest _
  exact (hvisit _ _ _).bind fun _ _ => neverMisses_ok _

end Elements

theorem Embed.neverMisses_readAll (data : Node) : NeverMisses (Embed.readAll data) := by
  have hkind : ∀ name kind place, NeverMisses (checkKind name kind place) := by
    intro name kind place
    rw [checkKind]
    split
    · exact neverMisses_error id
    · exact neverMisses_ok _
  refine (neverMisses_access _).bind fun _ _ => neverMisses_mapM (fun item => ?_) _
  exact (neverMisses_access _).bind fun _ _ => (neverMisses_access _).bind fun _ _ =>
    (neverMisses_access _).bind fun _ _ => (hkind _ _ _).bind fun _ _ => neverMisses_ok _

namespace Stack

variable {archs : Architectures} {elements : Elements} {stack : Element} {siblings : List String}

theorem neverMisses_elementOf (made : List Element) (embed : Embed) :
    NeverMisses (elementOf archs elements stack siblings made embed) := by
  have hname : NeverMisses (checkName elements stack made embed) := by
    rw [checkName]
    split
    · exact neverMisses_error id
    · split
      · exact neverMisses_error id
      · exact neverMisses_ok _
  have hvariants : ∀ e, NeverMisses (checkVariants stack embed e) := by
    intro e
    rw [checkVariants]
    split
    · exact neverMisses_error id
    · exact neverMisses_ok _
  have hsiblings : ∀ e, NeverMisses (checkSiblings stack siblings embed e) := by
    intro e
    rw [checkSiblings]
    split
    · exact neverMisses_error id
    · exact neverMisses_ok _
  exact hname.bind fun _ _ => (Element.neverMisses_ofDocument _ _ _ _ _).bind fun _ _ =>
    (hvariants _).bind fun _ _ => (hsiblings _).bind fun _ _ =>
    (Configuration.neverMisses_commitTo _ _).map _

theorem neverMisses_elementsOf (embeds : List Embed) (made : List Element) :
    NeverMisses (elementsOf archs elements stack siblings embeds made) := by
  induction embeds generalizing made with
  | nil => exact neverMisses_ok _
  | cons embed rest ih => exact (neverMisses_elementOf _ _).bind fun _ _ => ih _

end Stack

theorem Elements.neverMisses_expandAll (archs : Architectures) (elements : Elements)
    (names : List String) : NeverMisses (elements.expandAll archs names) := by
  have hstack : ∀ (elements : Elements) name, NeverMisses (elements.expandStack archs name) := by
    intro elements name
    rw [expandStack]
    split
    · exact neverMisses_ok _
    · exact (Embed.neverMisses_readAll _).bind fun _ _ =>
        (Stack.neverMisses_elementsOf _ _).bind fun _ _ => neverMisses_ok _
  induction names generalizing elements with
  | nil => exact neverMisses_ok _
  | cons name rest ih =>
    exact (hstack _ _).bind fun _ _ => (neverMisses_checkCircular _ _).bind fun _ _ => ih _

theorem Source.neverMisses_take (element : String) (document : Node) :
    NeverMisses (Source.take element document) := by
  have hread : ∀ index item, NeverMisses (read element index item) := fun _ _ =>
    (neverMisses_access _).bind fun _ _ => (neverMisses_access _).bind fun _ _ =>
      (neverMisses_access _).bind fun _ _ => neverMisses_ok _
  have hlist : ∀ items index, NeverMisses (readList element items index) := by
    intro items
    induction items with
    | nil => exact fun _ => neverMisses_ok _
    | cons item rest ih =>
      exact fun index => (hread _ _).bind fun _ _ => (ih _).bind fun _ _ => neverMisses_ok _
  exact (neverMisses_access _).bind fun _ _ => (hlist _ _).bind fun _ _ => neverMisses_ok _

end BuildGraph
